import BehaviorTree.Proofs.Executor.Sound
import Mathlib.Data.List.Forall2

/-!
# Ticks that go alike

Two ticks go alike if they result in the same status and leave frames that show the same world, the
same blackboard and the same messages, with saved blackboards, stores and generators that are related
in some way. A node ticked on either side goes alike if the ticks of its children do, whatever the
relation between stores, as long as it shows the state of that node, and whatever that between saved
blackboards, which no node reads. So two trees, or one tree in two states, are compared by relating
their positions.
-/

namespace BehaviorTree

/-- Whether two frames show the same to a host, with related stores and generators. -/
structure Frame.Like (S : Store → Store → Prop) (G : Generator → Generator → Prop) (f g : Frame) :
    Prop where
  world : f.world = g.world
  blackboard : f.blackboard = g.blackboard
  saved : f.saved = g.saved
  store : S f.store g.store
  generator : G f.generator g.generator
  messages : messagesOf f.journal = messagesOf g.journal

/-- Whether two frames show the same to a host but for the saved blackboard, which is related as
stores and generators are. -/
structure Frame.Akin (V : Blackboard → Blackboard → Prop) (S : Store → Store → Prop)
    (G : Generator → Generator → Prop) (f g : Frame) : Prop where
  world : f.world = g.world
  blackboard : f.blackboard = g.blackboard
  saved : V f.saved g.saved
  store : S f.store g.store
  generator : G f.generator g.generator
  messages : messagesOf f.journal = messagesOf g.journal

theorem Frame.like_eq_akin (S : Store → Store → Prop) (G : Generator → Generator → Prop) :
    Frame.Like S G = Frame.Akin (· = ·) S G := by
  funext f g
  apply propext
  constructor
  · intro h
    exact { h with }
  · intro h
    exact { h with }

/-- Whether related blackboards stay related when a variable is set in both. -/
def Blackboard.Written (V : Blackboard → Blackboard → Prop) : Prop :=
  ∀ {b b' : Blackboard} (name : String) (v : Json), V b b' → V (b.insert name v) (b'.insert name v)

theorem Blackboard.written_eq : Written (· = ·) := by
  intro b b' name v h
  rw [h]

structure Alike (R : Frame → Frame → Prop) (a b : Status × Frame) : Prop where
  status : a.1 = b.1
  frame : R a.2 b.2

theorem Alike.of {R : Frame → Frame → Prop} {status : Status} {f g : Frame} (h : R f g) :
    Alike R (status, f) (status, g) := ⟨rfl, h⟩

def TicksAlike {n n' : Nat} (C : Fin n → Fin n' → Prop) (R : Frame → Frame → Prop) (tick : Ticker n)
    (tick' : Ticker n') : Prop :=
  ∀ c c', C c c' → ∀ f g, R f g → Alike R (tick c f) (tick' c' g)

namespace Memory

/-- Where the run of an ordered composite goes on, and by which order. -/
def cursor (m : Memory) : Nat × Option (List Nat) := (m.currentIndex, m.shuffledIndices)

/-- Whether a change of memory does no more than go on with the run of an ordered composite. -/
structure Steers (change : Memory → Memory) : Prop where
  cursor {m m' : Memory} : m.cursor = m'.cursor → (change m).cursor = (change m').cursor
  sound {m : Memory} : m.Sound → (change m).Sound

theorem steers_endRun : Steers endRun where
  cursor _ := rfl
  sound h := h.endRun

theorem steers_stay (position : Nat) : Steers fun m => { m with currentIndex := position } where
  cursor h := Prod.ext rfl (Prod.ext_iff.mp h).2
  sound h := ⟨h.order, h.iteration⟩

theorem steers_shuffle (count : Nat) (g : Generator) : Steers fun m =>
    { m with currentIndex := 0, shuffledIndices := some (g.shuffle count).1 } where
  cursor _ := rfl
  sound h := h.shuffle count g

end Memory

namespace Store

/-- Whether related stores have the same state for a node, and stay related when it changes. -/
structure Shows (S : Store → Store → Prop) (id : String) : Prop where
  state {s t : Store} : S s t → s.state id = t.state id
  update {s t : Store} (change : NodeState → NodeState) : S s t →
    S (s.update id change) (t.update id change)

/-- Whether related stores have the same run of an ordered composite under two names, and stay
related when it goes on. -/
structure SharesRun (S : Store → Store → Prop) (id id' : String) : Prop where
  cursor {s t : Store} : S s t → (s.state id).memory.cursor = (t.state id').memory.cursor
  update {s t : Store} {change : Memory → Memory} (hchange : Memory.Steers change) : S s t →
    S (s.update id fun x => { x with memory := change x.memory })
      (t.update id' fun x => { x with memory := change x.memory })

theorem Shows.sharesRun {S : Store → Store → Prop} {id : String} (h : Shows S id) :
    SharesRun S id id where
  cursor hs := congrArg (·.memory.cursor) (h.state hs)
  update _ hs := h.update _ hs

theorem shows_eq (id : String) : Shows (· = ·) id where
  state h := by rw [h]
  update _ h := by rw [h]

end Store

/-- Whether a kind of nodes draws from the generator. -/
def Kind.draws : Kind → Bool
  | .composite .randomSelector | .composite .randomSequence | .condition .random => true
  | _ => false

variable {V : Blackboard → Blackboard → Prop} {S : Store → Store → Prop}
  {G : Generator → Generator → Prop} {id id' : String}

namespace Frame.Akin

variable {f g : Frame}

theorem state (h : f.Akin V S G g) (hS : Store.Shows S id) : f.state id = g.state id :=
  hS.state h.store

theorem memory (h : f.Akin V S G g) (hS : Store.Shows S id) : f.memory id = g.memory id :=
  congrArg (·.memory) (h.state hS)

theorem note (h : f.Akin V S G g) {e e' : Entry} (he : messagesOf #[e] = messagesOf #[e']) :
    (f.note e).Akin V S G (g.note e') := by
  have hmessages : messagesOf (f.journal.push e) = messagesOf (g.journal.push e') := by
    rw [messagesOf_push, messagesOf_push, h.messages, he]
  exact { h with messages := hmessages }

theorem updateState (h : f.Akin V S G g) (hS : Store.Shows S id) (change : NodeState → NodeState) :
    (f.updateState id change).Akin V S G (g.updateState id change) :=
  { h with store := hS.update change h.store }

theorem updateMemory (h : f.Akin V S G g) (hS : Store.Shows S id) (change : Memory → Memory) :
    (f.updateMemory id change).Akin V S G (g.updateMemory id change) :=
  h.updateState hS _

theorem steer (h : f.Akin V S G g) (hS : Store.SharesRun S id id') {change : Memory → Memory}
    (hchange : Memory.Steers change) :
    (f.updateMemory id change).Akin V S G (g.updateMemory id' change) :=
  { h with store := hS.update hchange h.store }

theorem updateEntity (h : f.Akin V S G g) (name : String) (p : Patch) :
    (f.updateEntity name p).Akin V S G (g.updateEntity name p) :=
  { h with world := congrArg (·.update name p) h.world }

theorem emit (h : f.Akin V S G g) (name : String) (payload : Json) :
    (f.emit name payload).Akin V S G (g.emit name payload) :=
  { h with world := congrArg (·.emit name payload) h.world }

theorem setVariable (h : f.Akin V S G g) (name : String) (v : Json) :
    (f.setVariable name v).Akin V S G (g.setVariable name v) :=
  { h with blackboard := congrArg (·.insert name v) h.blackboard }

theorem saveVariable (hV : Blackboard.Written V) (h : f.Akin V S G g) (name : String) (v : Json) :
    (f.saveVariable name v).Akin V S G (g.saveVariable name v) :=
  { h with saved := hV name v h.saved }

theorem setVelocity (h : f.Akin V S G g) (velocity : Vec2) :
    (f.setVelocity velocity).Akin V S G (g.setVelocity velocity) :=
  (h.setVariable _ _).setVariable _ _

end Frame.Akin

section Leaves

variable {m : Moment} {s : Settings} {f g : Frame}

private theorem akin_stepToward (h : f.Akin V S G g) (start goal : Vec2) (speed : Float32) :
    (Action.stepToward m start goal speed f).Akin V S G (Action.stepToward m start goal speed g) := by
  rw [Action.stepToward, Action.stepToward]
  dsimp only
  split
  · exact h
  · exact (h.updateEntity _ _).setVelocity _

private theorem alike_strike (h : f.Akin V S G g) (hS : Store.Shows S s.node.id) (me : Entity) :
    Alike (Frame.Akin V S G) (Action.strike m s me f) (Action.strike m s me g) := by
  rw [Action.strike, Action.strike]
  dsimp only
  rw [h.state hS, h.world]
  split
  · exact .of h
  · split
    · exact .of h
    · split
      · exact .of h
      · exact .of (((h.updateEntity _ _).emit _ _).updateMemory hS _)

private theorem alike_fleeFrom (h : f.Akin V S G g) (me : Entity) :
    Alike (Frame.Akin V S G) (Action.fleeFrom m s me f) (Action.fleeFrom m s me g) := by
  rw [Action.fleeFrom, Action.fleeFrom, h.world]
  split
  · exact .of h
  · dsimp only
    split
    · exact .of (h.setVelocity _)
    · exact .of ((h.updateEntity _ _).setVelocity _)

private theorem alike_walkRoute (h : f.Akin V S G g) (hS : Store.Shows S s.node.id) (me : Entity) :
    Alike (Frame.Akin V S G) (Action.walkRoute m s me f) (Action.walkRoute m s me g) := by
  rw [Action.walkRoute, Action.walkRoute]
  dsimp only
  split
  · exact .of h
  · rename_i route _
    rw [h.memory hS]
    have hturned := h.updateMemory hS fun memory =>
      { memory with waypointIndex := (g.memory s.node.id).waypointIndex % route.length }
    rw [hturned.memory hS]
    split
    · exact .of ((hturned.updateMemory hS _).setVelocity _)
    · split
      · exact .of hturned
      · split
        · exact .of ((hturned.updateMemory hS _).setVelocity _)
        · exact .of (akin_stepToward hturned _ _ _)

private theorem alike_pause (h : f.Akin V S G g) (hS : Store.Shows S s.node.id) :
    Alike (Frame.Akin V S G) (Action.pause m s f) (Action.pause m s g) := by
  rw [Action.pause, Action.pause, h.memory hS]
  split
  · exact .of (h.updateMemory hS _)
  · exact .of (h.updateMemory hS _)

theorem alike_action (hV : Blackboard.Written V) (h : f.Akin V S G g)
    (hS : Store.Shows S s.node.id) (a : Action) (me : Entity) :
    Alike (Frame.Akin V S G) (a.run m s me f) (a.run m s me g) := by
  cases a with
  | move =>
    rw [Action.run, Action.run, Action.moveTo, Action.moveTo]
    split
    · exact .of h
    · exact .of (akin_stepToward h _ _ _)
  | attack => exact alike_strike h hS me
  | flee => exact alike_fleeFrom h me
  | patrol => exact alike_walkRoute h hS me
  | idle => exact alike_pause (h.setVelocity _) hS
  | wait => exact alike_pause h hS
  | log => exact .of (h.note rfl)
  | setBlackboard =>
    rw [Action.run, Action.run, Action.setVariables, Action.setVariables]
    dsimp only
    split
    · exact .of h
    · exact .of ((h.setVariable _ _).saveVariable hV _ _)

theorem alike_condition (h : f.Akin V S G g) (c : Condition)
    (hG : (Kind.condition c).draws = true → G = (· = ·)) :
    Alike (Frame.Akin V S G) (c.run m s f) (c.run m s g) := by
  cases c with
  | random =>
    obtain rfl := hG rfl
    have hgenerator : f.generator = g.generator := h.generator
    rw [Condition.run, Condition.run, Condition.draw, Condition.draw, hgenerator]
    generalize g.generator.nextUnit = drawn
    exact .of { h with generator := rfl }
  | always | never | distance | inRange | health | targetHealth | hasTarget | isMoving | canSee
  | checkBlackboard =>
    refine ⟨?_, h⟩
    simp only [Condition.run, h.world, h.blackboard]

end Leaves

section Parents

variable {n n' : Nat} {C : Fin n → Fin n' → Prop} {children : List (Fin n)}
  {children' : List (Fin n')} {tick : Ticker n} {tick' : Ticker n'} {m : Moment} {s : Settings}
  {f g : Frame}

private theorem forall₂_getElem? (h : List.Forall₂ C children children') (i : Nat) :
    Option.Rel C children[i]? children'[i]? := by
  induction h generalizing i with
  | nil => exact .none
  | cons hhead _ ih =>
    cases i with
    | zero => exact .some hhead
    | succ i => exact ih i

private theorem forall₂_head? (h : List.Forall₂ C children children') :
    Option.Rel C children.head? children'.head? := by
  cases h with
  | nil => exact .none
  | cons hhead _ => exact .some hhead

theorem alike_runFrom (hS : Store.SharesRun S id id')
    (htick : TicksAlike C (Frame.Akin V S G) tick tick') (hchildren : List.Forall₂ C children children')
    (stopOn : Status) (order : List Nat) (position : Nat) (h : f.Akin V S G g) :
    Alike (Frame.Akin V S G) (Composite.runFrom id stopOn children tick order position f)
      (Composite.runFrom id' stopOn children' tick' order position g) := by
  induction order generalizing position f g with
  | nil => exact .of (h.steer hS Memory.steers_endRun)
  | cons place rest ih =>
    rw [Composite.runFrom, Composite.runFrom]
    have hplace := forall₂_getElem? hchildren place
    generalize children[place]? = child? at hplace
    generalize children'[place]? = child?' at hplace
    cases hplace with
    | none => exact .of h
    | @some child child' hchild =>
      dsimp only
      have hdone := htick child child' hchild f g h
      generalize tick child f = done at hdone
      generalize tick' child' g = done' at hdone
      obtain ⟨status, f⟩ := done
      obtain ⟨status', g⟩ := done'
      obtain ⟨hstatus, hframe⟩ := hdone
      dsimp only at hstatus hframe
      subst hstatus
      cases status with
      | running => exact .of (hframe.steer hS (Memory.steers_stay position))
      | success | failure =>
        dsimp only
        split
        · exact .of (hframe.steer hS Memory.steers_endRun)
        · exact ih (position + 1) hframe

private theorem akin_drawnOrder (hS : Store.SharesRun S id id') (count : Nat)
    (h : f.Akin V S (· = ·) g) :
    (Composite.drawnOrder id count f).1 = (Composite.drawnOrder id' count g).1 ∧
      (Composite.drawnOrder id count f).2.Akin V S (· = ·) (Composite.drawnOrder id' count g).2 := by
  have horder : (f.memory id).shuffledIndices = (g.memory id').shuffledIndices :=
    (Prod.ext_iff.mp (hS.cursor h.store)).2
  have hgenerator : f.generator = g.generator := h.generator
  rw [Composite.drawnOrder, Composite.drawnOrder, horder]
  split
  · exact ⟨rfl, h⟩
  · dsimp only
    rw [hgenerator]
    have hdrawn : Frame.Akin V S (· = ·) { f with generator := (g.generator.shuffle count).2 }
        { g with generator := (g.generator.shuffle count).2 } := { h with generator := rfl }
    refine ⟨rfl, (hdrawn.note ?_).steer hS (Memory.steers_shuffle count g.generator)⟩
    rfl

/-- Ordered composites go alike that share their run, under whatever names. -/
theorem akin_ordered (hS : Store.SharesRun S id id')
    (htick : TicksAlike C (Frame.Akin V S G) tick tick') (hchildren : List.Forall₂ C children children')
    (stopOn : Status) {shuffled : Bool} (hG : shuffled = true → G = (· = ·)) (h : f.Akin V S G g) :
    Alike (Frame.Akin V S G) (Composite.ordered id stopOn shuffled children tick f)
      (Composite.ordered id' stopOn shuffled children' tick' g) := by
  have hindex : ∀ {f g : Frame}, f.Akin V S G g →
      (f.memory id).currentIndex = (g.memory id').currentIndex :=
    fun h => (Prod.ext_iff.mp (hS.cursor h.store)).1
  rw [Composite.ordered, Composite.ordered, hchildren.length_eq]
  cases shuffled with
  | false =>
    simp only [Bool.false_eq_true, if_false, hindex h]
    exact alike_runFrom hS htick hchildren stopOn _ _ h
  | true =>
    obtain rfl := hG rfl
    obtain ⟨horder, hdrawn⟩ := akin_drawnOrder hS children'.length h
    simp only [if_true, hindex hdrawn, horder]
    exact alike_runFrom hS htick hchildren stopOn _ _ hdrawn

private theorem akin_tickAll (htick : TicksAlike C (Frame.Akin V S G) tick tick')
    (hchildren : List.Forall₂ C children children') (h : f.Akin V S G g) :
    (Composite.tickAll tick children f).1 = (Composite.tickAll tick' children' g).1 ∧
      (Composite.tickAll tick children f).2.Akin V S G (Composite.tickAll tick' children' g).2 := by
  induction hchildren generalizing f g with
  | nil => exact ⟨rfl, h⟩
  | @cons child child' rest rest' hchild _ ih =>
    obtain ⟨hstatus, hframe⟩ := htick child child' hchild f g h
    obtain ⟨hstatuses, hall⟩ := ih hframe
    simp only [Composite.tickAll, hstatus, hstatuses]
    exact ⟨trivial, hall⟩

private theorem alike_composite (hS : Store.Shows S s.node.id)
    (htick : TicksAlike C (Frame.Akin V S G) tick tick') (hchildren : List.Forall₂ C children children')
    (c : Composite) (hG : (Kind.composite c).draws = true → G = (· = ·)) (h : f.Akin V S G g) :
    Alike (Frame.Akin V S G) (c.run s children tick f) (c.run s children' tick' g) := by
  cases c with
  | parallel =>
    have hempty : children.isEmpty = children'.isEmpty := by
      cases hchildren with
      | nil => rfl
      | cons _ _ => rfl
    rw [Composite.run, Composite.run, Composite.abreast, Composite.abreast, hempty]
    split
    · exact .of h
    · obtain ⟨hstatuses, hframe⟩ := akin_tickAll htick hchildren h
      exact ⟨congrArg (Composite.verdict _ _) hstatuses, hframe⟩
  | sequence | selector =>
    rw [Composite.run, Composite.run]
    exact akin_ordered hS.sharesRun htick hchildren _ (fun h => Bool.noConfusion h) h
  | randomSelector | randomSequence =>
    rw [Composite.run, Composite.run]
    exact akin_ordered hS.sharesRun htick hchildren _ (fun _ => hG rfl) h

private theorem alike_countRun (hS : Store.Shows S s.node.id) (limit : UInt32) (outcome : Status)
    (h : f.Akin V S G g) : Alike (Frame.Akin V S G) (Decorator.countRun s.node.id limit outcome f)
      (Decorator.countRun s.node.id limit outcome g) := by
  rw [Decorator.countRun, Decorator.countRun, h.memory hS]
  split
  · exact .of (h.updateMemory hS _)
  · exact .of (h.updateMemory hS _)

private theorem alike_ended {a b : Status × Frame} {done done' : Status → Frame → Status × Frame} :
    (∀ status f g, f.Akin V S G g → Alike (Frame.Akin V S G) (done status f) (done' status g)) →
    Alike (Frame.Akin V S G) a b → Alike (Frame.Akin V S G)
      (match a with
        | (.running, f) => (.running, f)
        | (status, f) => done status f)
      (match b with
        | (.running, f) => (.running, f)
        | (status, f) => done' status f) := by
  intro hdone h
  obtain ⟨status, f⟩ := a
  obtain ⟨status', g⟩ := b
  obtain ⟨hstatus, hframe⟩ := h
  dsimp only at hstatus hframe
  subst hstatus
  cases status with
  | running => exact .of hframe
  | success | failure => exact hdone _ f g hframe

private theorem alike_gate (hS : Store.Shows S s.node.id)
    (htick : TicksAlike C (Frame.Akin V S G) tick tick') {child? : Option (Fin n)}
    {child?' : Option (Fin n')} (hchild : Option.Rel C child? child?') (h : f.Akin V S G g) :
    Alike (Frame.Akin V S G) (Decorator.gate s child? tick f) (Decorator.gate s child?' tick' g) := by
  simp only [Decorator.gate, h.state hS]
  split
  · exact .of h
  · cases hchild with
    | none => exact .of h
    | @some child child' hc =>
      exact alike_ended (fun _ _ _ hf => .of (hf.updateState hS _)) (htick child child' hc f g h)

private theorem alike_limitTime (hS : Store.Shows S s.node.id)
    (htick : TicksAlike C (Frame.Akin V S G) tick tick') {child? : Option (Fin n)}
    {child?' : Option (Fin n')} (hchild : Option.Rel C child? child?') (h : f.Akin V S G g) :
    Alike (Frame.Akin V S G) (Decorator.limitTime m s child? tick f)
      (Decorator.limitTime m s child?' tick' g) := by
  simp only [Decorator.limitTime, h.state hS]
  generalize (if (g.state s.node.id).status = .running then (g.state s.node.id).memory.elapsed
    else 0) + m.delta = elapsed
  split
  · exact .of (h.updateMemory hS _)
  · cases hchild with
    | none => exact .of (h.updateMemory hS _)
    | @some child child' hc => exact htick child child' hc _ _ (h.updateMemory hS _)

private theorem alike_decorator (hS : Store.Shows S s.node.id)
    (htick : TicksAlike C (Frame.Akin V S G) tick tick') (hchildren : List.Forall₂ C children children')
    (d : Decorator) (h : f.Akin V S G g) :
    Alike (Frame.Akin V S G) (d.run m s children tick f) (d.run m s children' tick' g) := by
  have hchild := forall₂_head? hchildren
  rw [Decorator.run.eq_def, Decorator.run.eq_def]
  generalize children.head? = child? at hchild
  generalize children'.head? = child?' at hchild
  cases d with
  | cooldown => exact alike_gate hS htick hchild h
  | timeout => exact alike_limitTime hS htick hchild h
  | inverter =>
    cases hchild with
    | none => exact .of h
    | @some child child' hc =>
      obtain ⟨hstatus, hframe⟩ := htick child child' hc f g h
      exact ⟨congrArg Status.invert hstatus, hframe⟩
  | succeeder | failer =>
    cases hchild with
    | none => exact .of h
    | @some child child' hc =>
      exact alike_ended (fun _ _ _ hf => .of hf) (htick child child' hc f g h)
  | repeater =>
    cases hchild with
    | none => exact .of h
    | @some child child' hc =>
      exact alike_ended (fun _ _ _ hf => alike_countRun hS _ _ hf) (htick child child' hc f g h)
  | repeatUntilFail | repeatUntilSuccess =>
    cases hchild with
    | none => exact .of h
    | @some child child' hc =>
      refine alike_ended (fun status _ _ hf => ?_) (htick child child' hc f g h)
      split
      · exact .of (hf.updateMemory hS _)
      · exact alike_countRun hS _ _ hf

/-- Nodes of the same settings go alike if the ticks of their children do. -/
theorem akin_dispatch (hV : Blackboard.Written V) (hS : Store.Shows S s.node.id)
    (hG : s.definition.kind.draws = true → G = (· = ·))
    (htick : TicksAlike C (Frame.Akin V S G) tick tick') (hchildren : List.Forall₂ C children children')
    (h : f.Akin V S G g) :
    Alike (Frame.Akin V S G) (dispatch m s children tick f) (dispatch m s children' tick' g) := by
  rw [dispatch, dispatch]
  cases hkind : s.definition.kind with
  | composite c =>
    rw [hkind] at hG
    exact alike_composite hS htick hchildren c hG h
  | decorator d => exact alike_decorator hS htick hchildren d h
  | action a =>
    dsimp only
    rw [h.world]
    cases g.world.get? m.agent with
    | none => exact .of h
    | some me => exact alike_action hV h hS a me
  | condition c =>
    rw [hkind] at hG
    exact alike_condition h c hG

theorem alike_ordered (hS : Store.SharesRun S id id')
    (htick : TicksAlike C (Frame.Like S G) tick tick') (hchildren : List.Forall₂ C children children')
    (stopOn : Status) {shuffled : Bool} (hG : shuffled = true → G = (· = ·)) (h : f.Like S G g) :
    Alike (Frame.Like S G) (Composite.ordered id stopOn shuffled children tick f)
      (Composite.ordered id' stopOn shuffled children' tick' g) := by
  rw [Frame.like_eq_akin] at htick h ⊢
  exact akin_ordered hS htick hchildren stopOn hG h

end Parents

end BehaviorTree
