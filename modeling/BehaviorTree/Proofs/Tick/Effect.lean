import BehaviorTree.Proofs.Tick.Script
import BehaviorTree.Executor
import Mathlib.Logic.Relation

/-!
# Effects

All that a node of a known type may change by itself: its own memory, and in the world, the
blackboards, the generator and the journal what its type is for. Only actions change what surrounds
a tree. A relation between frames that every effect respects, and the bookkeeping of ticks too, holds
over whole ticks.
-/

namespace BehaviorTree

open Relation

/-- What surrounds a tree in a tick: the world, and the blackboards of the tick and of the tree. -/
structure Surroundings where
  world : World
  blackboard : Blackboard
  saved : Blackboard

def Frame.surroundings (f : Frame) : Surroundings := ⟨f.world, f.blackboard, f.saved⟩

/-- One change that a node makes to a frame. -/
inductive Effect (m : Moment) (s : Settings) (f : Frame) : Frame → Prop where
  | endRun : Effect m s f (f.updateMemory s.node.id .endRun)
  | stay (position : Nat) : Effect m s f
      (f.updateMemory s.node.id fun memory => { memory with currentIndex := position })
  | shuffle (count : Nat) : Effect m s f
      (({ f with generator := (f.generator.shuffle count).2 }.note
        (.shuffled s.node.id count)).updateMemory s.node.id fun memory =>
          { memory with
            currentIndex := 0, shuffledIndices := some (f.generator.shuffle count).1 })
  | count (iteration limit : UInt32) (h : iteration < limit) : Effect m s f
      (f.updateMemory s.node.id fun memory => { memory with iteration := iteration })
  | complete : Effect m s f
      (f.updateState s.node.id fun state =>
        { state with memory := { state.memory with lastExecutionTime := state.runningTime } })
  | elapse (seconds : Float32) : Effect m s f
      (f.updateMemory s.node.id fun memory => { memory with elapsed := seconds })
  | move (position velocity : Vec2) : Effect m s f
      ((f.updateEntity m.agent (.ofPosition position)).setVelocity velocity)
  | halt (velocity : Vec2) : Effect m s f (f.setVelocity velocity)
  | strike (health : Float32) : Effect m s f
      (((f.updateEntity (s.text "targetEntity") (.ofHealth health)).emit "attack"
        (Action.attackReport m.agent (s.text "targetEntity") (s.number "damage") health)).updateMemory
          s.node.id fun memory =>
            { memory with lastAttackTime := some (f.state s.node.id).runningTime })
  | turn (waypoint : Nat) : Effect m s f
      (f.updateMemory s.node.id fun memory => { memory with waypointIndex := waypoint })
  | arrive : Effect m s f
      (f.updateMemory s.node.id fun memory => { memory with waiting := true, waitElapsed := 0 })
  | linger (waitTime : Float32) (count : Nat) : Effect m s f
      (f.updateMemory s.node.id (Action.lingering m.delta waitTime count))
  | send (message : Message) : Effect m s f (f.note (.logged message))
  | write (key : String) (value : Json) : Effect m s f
      ((f.setVariable key value).saveVariable key value)
  | draw : Effect m s f { f with generator := f.generator.nextUnit.2 }

/-- An effect may only note messages and drawn orders. -/
theorem Effect.journal {m : Moment} {s : Settings} {f g : Frame} (h : Effect m s f g) :
    g.journal = f.journal ∨ (∃ id count, g.journal = f.journal.push (.shuffled id count)) ∨
      ∃ message, g.journal = f.journal.push (.logged message) := by
  cases h with
  | shuffle count => exact .inr (.inl ⟨s.node.id, count, rfl⟩)
  | send message => exact .inr (.inr ⟨message, rfl⟩)
  | _ => exact .inl rfl

/-- Any number of changes. -/
abbrev Effects (m : Moment) (s : Settings) : Frame → Frame → Prop := ReflTransGen (Effect m s)

theorem messagesOf_push (journal : Array Entry) (e : Entry) :
    messagesOf (journal.push e) = messagesOf journal ++ messagesOf #[e] := by
  simp [messagesOf]

/-- One change that a node makes within its tree. -/
structure Inward (m : Moment) (s : Settings) (f g : Frame) : Prop where
  effect : Effect m s f g
  surroundings : g.surroundings = f.surroundings
  messages : messagesOf g.journal = messagesOf f.journal

abbrev Inwards (m : Moment) (s : Settings) : Frame → Frame → Prop := ReflTransGen (Inward m s)

theorem Inwards.effects {m : Moment} {s : Settings} {f g : Frame} (h : Inwards m s f g) :
    Effects m s f g :=
  ReflTransGen.mono (fun _ _ hstep => hstep.effect) f g h

theorem Inwards.surroundings {m : Moment} {s : Settings} {f g : Frame} (h : Inwards m s f g) :
    g.surroundings = f.surroundings := by
  induction h with
  | refl => rfl
  | tail _ hstep ih => exact hstep.surroundings.trans ih

theorem Inwards.messages {m : Moment} {s : Settings} {f g : Frame} (h : Inwards m s f g) :
    messagesOf g.journal = messagesOf f.journal := by
  induction h with
  | refl => rfl
  | tail _ hstep ih => exact hstep.messages.trans ih

/-- One change that a node makes within its tree without drawing. -/
structure Steady (m : Moment) (s : Settings) (f g : Frame) : Prop extends Inward m s f g where
  generator : g.generator = f.generator

abbrev Steadies (m : Moment) (s : Settings) : Frame → Frame → Prop := ReflTransGen (Steady m s)

theorem Steadies.inwards {m : Moment} {s : Settings} {f g : Frame} (h : Steadies m s f g) :
    Inwards m s f g :=
  ReflTransGen.mono (fun _ _ hstep => hstep.toInward) f g h

theorem Steadies.generator {m : Moment} {s : Settings} {f g : Frame} (h : Steadies m s f g) :
    g.generator = f.generator := by
  induction h with
  | refl => rfl
  | tail _ hstep ih => exact hstep.generator.trans ih

section

variable {m : Moment} {s : Settings} {n : Nat}

private theorem effects_stepToward (start goal : Vec2) (speed : Float32) (f : Frame) :
    Effects m s f (Action.stepToward m start goal speed f) := by
  rw [Action.stepToward]
  dsimp only
  split
  · exact .refl
  · exact .single (.move _ _)

private theorem effects_strike (me : Entity) (f : Frame) :
    Effects m s f (Action.strike m s me f).2 := by
  rw [Action.strike]
  dsimp only
  split
  · exact .refl
  · split
    · exact .refl
    · split
      · exact .refl
      · exact .single (.strike _)

private theorem effects_fleeFrom (me : Entity) (f : Frame) :
    Effects m s f (Action.fleeFrom m s me f).2 := by
  rw [Action.fleeFrom]
  split
  · exact .refl
  · dsimp only
    split
    · exact .single (.halt _)
    · exact .single (.move _ _)

private theorem effects_walkRoute (me : Entity) (f : Frame) :
    Effects m s f (Action.walkRoute m s me f).2 := by
  rw [Action.walkRoute]
  dsimp only
  split
  · exact .refl
  · rename_i route _
    refine .head (.turn ((f.memory s.node.id).waypointIndex % route.length)) ?_
    split
    · exact .head (.linger _ _) (.single (.halt _))
    · split
      · exact .refl
      · split
        · exact .head .arrive (.single (.halt _))
        · exact effects_stepToward _ _ _ _

private theorem effects_pause (f : Frame) : Effects m s f (Action.pause m s f).2 := by
  rw [Action.pause]
  split
  · exact .single (.elapse _)
  · exact .single (.elapse _)

private theorem effects_setVariables (f : Frame) :
    Effects m s f (Action.setVariables s f).2 := by
  rw [Action.setVariables]
  dsimp only
  split
  · exact .refl
  · exact .single (.write _ _)

theorem effects_action (a : Action) (me : Entity) (f : Frame) :
    Effects m s f (a.run m s me f).2 := by
  cases a with
  | move =>
    rw [Action.run, Action.moveTo]
    split
    · exact .refl
    · exact effects_stepToward _ _ _ _
  | attack => exact effects_strike me f
  | flee => exact effects_fleeFrom me f
  | patrol => exact effects_walkRoute me f
  | idle => exact .head (.halt _) (effects_pause _)
  | wait => exact effects_pause f
  | log => exact .single (.send _)
  | setBlackboard => exact effects_setVariables f

private theorem inwards_condition (c : Condition) (f : Frame) : Inwards m s f (c.run m s f).2 := by
  cases c with
  | random =>
    have hdraw : Inward m s f { f with generator := f.generator.nextUnit.2 } :=
      ⟨.draw, by simp only [Frame.surroundings], by simp only⟩
    exact .single hdraw
  | always | never | distance | inRange | health | targetHealth | hasTarget | isMoving | canSee
  | checkBlackboard => exact .refl

private theorem steadies_countRun (limit : UInt32) (outcome : Status) (f : Frame) :
    Steadies m s f (Decorator.countRun s.node.id limit outcome f).2 := by
  rw [Decorator.countRun]
  split
  · exact .single ⟨⟨.count 0 1 (by decide), rfl, rfl⟩, rfl⟩
  · rename_i h
    exact .single ⟨⟨.count _ limit (UInt32.not_le.mp h), rfl, rfl⟩, rfl⟩

private theorem stretches_afterRun {child : Fin n} {f : Frame}
    {done : Status → Frame → Status × Frame} (hdone : ∀ status g, Steadies m s g (done status g).2) :
    (Decorator.afterRun child f done).Stretches (Steadies m s) f := by
  refine ⟨.refl, fun status g => ?_⟩
  cases status with
  | running => exact ReflTransGen.refl
  | success | failure => exact hdone _ g

private theorem steadies_untilDone (awaited status : Status) (f : Frame) :
    Steadies m s f (Decorator.untilDone awaited s status f).2 := by
  rw [Decorator.untilDone]
  split
  · exact .single ⟨⟨.count 0 1 (by decide), rfl, rfl⟩, rfl⟩
  · exact steadies_countRun _ _ f

private theorem stretches_gate (child? : Option (Fin n)) (f : Frame) :
    (Decorator.gateScript s child? f).Stretches (Steadies m s) f := by
  simp only [Decorator.gateScript]
  split
  · exact ReflTransGen.refl
  · cases child? with
    | none => exact ReflTransGen.refl
    | some child =>
      refine ⟨.refl, fun status g => ?_⟩
      cases status with
      | running => exact ReflTransGen.refl
      | success | failure => exact ReflTransGen.single ⟨⟨.complete, rfl, rfl⟩, rfl⟩

private theorem stretches_limitTime (child? : Option (Fin n)) (f : Frame) :
    (Decorator.limitTimeScript m s child? f).Stretches (Steadies m s) f := by
  simp only [Decorator.limitTimeScript]
  generalize (if (f.state s.node.id).status = .running then (f.state s.node.id).memory.elapsed
    else 0) + m.delta = elapsed
  split
  · exact ReflTransGen.single ⟨⟨.elapse _, rfl, rfl⟩, rfl⟩
  · cases child? with
    | none => exact ReflTransGen.single ⟨⟨.elapse _, rfl, rfl⟩, rfl⟩
    | some child => exact ⟨.single ⟨⟨.elapse _, rfl, rfl⟩, rfl⟩, fun _ _ => ReflTransGen.refl⟩

theorem stretches_decorator (d : Decorator) (children : List (Fin n)) (f : Frame) :
    (d.script m s children f).Stretches (Steadies m s) f := by
  rw [Decorator.script.eq_def]
  cases children.head? with
  | none =>
    cases d with
    | cooldown => exact stretches_gate none f
    | timeout => exact stretches_limitTime none f
    | inverter | succeeder | failer | repeater | repeatUntilFail | repeatUntilSuccess =>
      exact ReflTransGen.refl
  | some child =>
    cases d with
    | cooldown => exact stretches_gate (some child) f
    | timeout => exact stretches_limitTime (some child) f
    | inverter => exact ⟨.refl, fun _ _ => ReflTransGen.refl⟩
    | succeeder | failer => exact stretches_afterRun fun _ _ => ReflTransGen.refl
    | repeater => exact stretches_afterRun fun _ g => steadies_countRun _ _ g
    | repeatUntilFail | repeatUntilSuccess => exact stretches_afterRun (steadies_untilDone _)

theorem stretches_scriptFrom (stopOn : Status) (children : List (Fin n))
    (order : List Nat) (position : Nat) (f : Frame) :
    (Composite.scriptFrom s.node.id stopOn children order position f).Stretches (Steadies m s) f := by
  induction order generalizing position f with
  | nil => exact ReflTransGen.single ⟨⟨.endRun, rfl, rfl⟩, rfl⟩
  | cons place rest ih =>
    rw [Composite.scriptFrom]
    cases children[place]? with
    | none => exact ReflTransGen.refl
    | some child =>
      refine ⟨.refl, fun status g => ?_⟩
      cases status with
      | running => exact ReflTransGen.single ⟨⟨.stay position, rfl, rfl⟩, rfl⟩
      | success | failure =>
        rw [Composite.proceed_of_ended (by decide)]
        split
        · exact ReflTransGen.single ⟨⟨.endRun, rfl, rfl⟩, rfl⟩
        · exact ih (position + 1) g

theorem inwards_drawnOrder (count : Nat) (f : Frame) :
    Inwards m s f (Composite.drawnOrder s.node.id count f).2 := by
  rw [Composite.drawnOrder]
  split
  · exact .refl
  · have hmessages := messagesOf_push f.journal (.shuffled s.node.id count)
    exact .single ⟨.shuffle count, rfl, hmessages.trans (List.append_nil _)⟩

private theorem stretches_ordered (stopOn : Status) (shuffled : Bool) (children : List (Fin n))
    (f : Frame) :
    (Composite.orderedScript s.node.id stopOn shuffled children f).Stretches (Inwards m s) f := by
  have hrun : ∀ (order : List Nat) (position : Nat) (g : Frame),
      (Composite.scriptFrom s.node.id stopOn children order position g).Stretches (Inwards m s) g :=
    fun order position g =>
      (stretches_scriptFrom stopOn children order position g).imp fun _ _ => Steadies.inwards
  cases shuffled with
  | false => exact hrun _ _ _
  | true => exact .head ReflTransGen.trans (inwards_drawnOrder children.length f) (hrun _ _ _)

theorem stretches_abreast (children : List (Fin n)) (f : Frame) :
    (Composite.abreastScript s children f).Stretches (Steadies m s) f := by
  rw [Composite.abreastScript]
  split
  · exact ReflTransGen.refl
  · refine Script.stretches_each (fun _ => .refl) (fun statuses g => ?_) f
    exact ReflTransGen.refl

private theorem stretches_composite (c : Composite) (children : List (Fin n)) (f : Frame) :
    (c.script s children f).Stretches (Inwards m s) f := by
  cases c with
  | parallel => exact (stretches_abreast children f).imp fun _ _ => Steadies.inwards
  | sequence => exact stretches_ordered .failure false children f
  | selector => exact stretches_ordered .success false children f
  | randomSelector => exact stretches_ordered .success true children f
  | randomSequence => exact stretches_ordered .failure true children f

theorem stretches_inwards (m : Moment) {s : Settings} (h : ∀ a, s.definition.kind ≠ .action a)
    (children : List (Fin n)) (f : Frame) :
    (script m s children f).Stretches (Inwards m s) f := by
  rw [script]
  cases hkind : s.definition.kind with
  | composite c => exact stretches_composite c children f
  | decorator d => exact (stretches_decorator d children f).imp fun _ _ => Steadies.inwards
  | action a => exact absurd hkind (h a)
  | condition c => exact inwards_condition c f

/-- Between the ticks of its children a node has only effects. -/
theorem stretches_script (m : Moment) (s : Settings) (children : List (Fin n)) (f : Frame) :
    (script m s children f).Stretches (Effects m s) f := by
  by_cases h : ∃ a, s.definition.kind = .action a
  · obtain ⟨a, ha⟩ := h
    simp only [script, ha]
    cases f.world.get? m.agent with
    | none => exact ReflTransGen.refl
    | some me => exact effects_action a me f
  · rw [not_exists] at h
    exact (stretches_inwards m h children f).imp fun _ _ => Inwards.effects

private theorem calls_scriptFrom (id : String) (stopOn : Status) (children : List (Fin n))
    (order : List Nat) (position : Nat) (f : Frame) :
    (Composite.scriptFrom id stopOn children order position f).Calls (· ∈ children) := by
  induction order generalizing position f with
  | nil => trivial
  | cons place rest ih =>
    rw [Composite.scriptFrom]
    split
    · trivial
    · rename_i child hchild
      refine ⟨List.mem_of_getElem? hchild, fun status g => ?_⟩
      cases status with
      | running => trivial
      | success | failure =>
        rw [Composite.proceed_of_ended (by decide)]
        split
        · trivial
        · exact ih (position + 1) g

private theorem calls_composite (c : Composite) (s : Settings) (children : List (Fin n))
    (f : Frame) : (c.script s children f).Calls (· ∈ children) := by
  cases c with
  | parallel =>
    rw [Composite.script, Composite.abreastScript]
    split
    · trivial
    · refine Script.calls_each (fun _ h => h) (fun statuses g => ?_) f
      trivial
  | sequence | selector | randomSelector | randomSequence =>
    rw [Composite.script, Composite.orderedScript]
    exact calls_scriptFrom _ _ _ _ _ _

private theorem calls_decorator (d : Decorator) (children : List (Fin n)) (f : Frame) :
    (d.script m s children f).Calls (· ∈ children) := by
  rw [Decorator.script.eq_def]
  cases hhead : children.head? with
  | none =>
    cases d with
    | cooldown =>
      dsimp only [Decorator.gateScript]
      split <;> trivial
    | timeout =>
      dsimp only [Decorator.limitTimeScript]
      split <;> split <;> trivial
    | inverter | succeeder | failer | repeater | repeatUntilFail | repeatUntilSuccess => trivial
  | some child =>
    have hmem : child ∈ children := List.mem_of_head? hhead
    cases d with
    | cooldown =>
      dsimp only [Decorator.gateScript]
      split
      · trivial
      · exact ⟨hmem, fun status g => by cases status <;> trivial⟩
    | timeout =>
      dsimp only [Decorator.limitTimeScript]
      split <;> split <;> first | trivial | exact ⟨hmem, fun _ _ => trivial⟩
    | inverter => exact ⟨hmem, fun _ _ => trivial⟩
    | succeeder | failer | repeater | repeatUntilFail | repeatUntilSuccess =>
      exact ⟨hmem, fun status g => by cases status <;> trivial⟩

theorem calls_script (m : Moment) (s : Settings) (children : List (Fin n)) (f : Frame) :
    (script m s children f).Calls (· ∈ children) := by
  rw [script]
  cases s.definition.kind with
  | composite c => exact calls_composite c s children f
  | decorator d => exact calls_decorator d children f
  | action a =>
    dsimp only
    cases f.world.get? m.agent <;> trivial
  | condition c => trivial

end

/-- A relation between the frames before and after a tick of a node, where so many more nodes may be
ticked within one another, that is kept by all that ticks are made of. -/
structure Respects (ix : Index) (m : Moment) (r : Nat → Fin ix.size → Frame → Frame → Prop) :
    Prop where
  refl (room : Nat) (p : Fin ix.size) (f : Frame) : r room p f f
  trans {room : Nat} {p : Fin ix.size} {f g h : Frame} : r room p f g → r room p g h → r room p f h
  deep (p : Fin ix.size) (f : Frame) : r 0 p f (f.note (.tooDeep (ix.name p)))
  enter (room : Nat) (p : Fin ix.size) (f : Frame) : r (room + 1) p f (ix.enter m room p f)
  leave (room : Nat) (p : Fin ix.size) (status : Status) (f : Frame) :
    r (room + 1) p f (ix.leave p status f)
  effect {room : Nat} {p : Fin ix.size} {d : Definition} {f g : Frame} :
    (ix.slot p).definition = some d → Effect m ⟨(ix.slot p).node, d⟩ f g → r (room + 1) p f g
  child {room : Nat} {p c : Fin ix.size} {f g : Frame} :
    c ∈ (ix.slot p).children → r room c f g → r (room + 1) p f g

namespace Respects

variable {ix : Index} {m : Moment} {r : Nat → Fin ix.size → Frame → Frame → Prop}

private theorem effects (h : Respects ix m r) {room : Nat} {p : Fin ix.size} {d : Definition}
    (hd : (ix.slot p).definition = some d) {f g : Frame}
    (he : Effects m ⟨(ix.slot p).node, d⟩ f g) : r (room + 1) p f g := by
  induction he with
  | refl => exact h.refl _ p f
  | tail _ hstep ih => exact h.trans ih (h.effect hd hstep)

private theorem script (h : Respects ix m r) {room : Nat} (p : Fin ix.size)
    (ih : ∀ c f, r room c f (BehaviorTree.tick ix m room c f).2) (f : Frame) :
    r (room + 1) p f ((ix.script m p f).run (BehaviorTree.tick ix m room)).2 := by
  rw [Index.script]
  cases hd : (ix.slot p).definition with
  | none => exact h.refl _ p f
  | some d =>
    have hstretches : Script.Stretches (r (room + 1) p) _ f :=
      (stretches_script m ⟨(ix.slot p).node, d⟩ (ix.slot p).children f).imp fun _ _ => h.effects hd
    have hcalls := calls_script m ⟨(ix.slot p).node, d⟩ (ix.slot p).children f
    have hticks : ∀ c ∈ (ix.slot p).children, ∀ g,
        r (room + 1) p g (BehaviorTree.tick ix m room c g).2 := fun c hc g => h.child hc (ih c g)
    exact Script.run_relates (r := r (room + 1) p) h.trans hticks hstretches hcalls

/-- The induction over ticks: what all their parts keep, ticks keep. -/
theorem tick (h : Respects ix m r) (room : Nat) (p : Fin ix.size) (f : Frame) :
    r room p f (BehaviorTree.tick ix m room p f).2 := by
  induction room generalizing p f with
  | zero => exact h.deep p f
  | succ room ih =>
    rw [tick_succ]
    exact h.trans (h.enter room p f) (h.trans (h.script p ih _) (h.leave room p _ _))

end Respects

end BehaviorTree
