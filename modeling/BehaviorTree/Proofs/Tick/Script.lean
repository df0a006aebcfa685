import BehaviorTree.Proofs.Tree.Link
import BehaviorTree.Tick.Basic

/-!
# Scripts

What a node does in a tick, laid out as the ticks of its children that it asks for and what it
does with each result. Dispatching a node runs its script, so that laws of ticks can be proved once
for all kinds of nodes.
-/

namespace BehaviorTree

/-- A result, or the tick of a child and what follows on it. -/
inductive Script (n : Nat) where
  | finish (status : Status) (f : Frame)
  | call (child : Fin n) (f : Frame) (next : Status → Frame → Script n)

namespace Script

variable {n : Nat}

def run (tick : Ticker n) : Script n → Status × Frame
  | finish status f => (status, f)
  | call child f next => (next (tick child f).1 (tick child f).2).run tick

/-- Ticks children one after the other and goes on with all their results. -/
def each (finish : List Status → Frame → Script n) : List (Fin n) → Frame → Script n
  | [], f => finish [] f
  | child :: rest, f => .call child f fun status f =>
      each (fun statuses f => finish (status :: statuses) f) rest f

/-- Whether a script asks for ticks of certain children only. -/
def Calls (p : Fin n → Prop) : Script n → Prop
  | finish _ _ => True
  | call child _ next => p child ∧ ∀ status f, (next status f).Calls p

/-- Whether a relation holds over every stretch of a script between two ticks, the first of them
from a given frame on. -/
def Stretches (r : Frame → Frame → Prop) : Script n → Frame → Prop
  | finish _ g, f => r f g
  | call _ g next, f => r f g ∧ ∀ status h, (next status h).Stretches r h

theorem run_each (tick : Ticker n) (finish : List Status → Frame → Script n)
    (children : List (Fin n)) (f : Frame) :
    (each finish children f).run tick =
      (finish (Composite.tickAll tick children f).1 (Composite.tickAll tick children f).2).run
        tick := by
  induction children generalizing finish f with
  | nil => rfl
  | cons child rest ih => simp only [each, run, ih, Composite.tickAll]

theorem calls_each {p : Fin n → Prop} {finish : List Status → Frame → Script n}
    {children : List (Fin n)} (hp : ∀ child ∈ children, p child)
    (hfinish : ∀ statuses f, (finish statuses f).Calls p) (f : Frame) :
    (each finish children f).Calls p := by
  induction children generalizing finish f with
  | nil => exact hfinish [] f
  | cons child rest ih =>
    refine ⟨hp child List.mem_cons_self, fun status g => ?_⟩
    exact ih (fun c hc => hp c (List.mem_cons_of_mem child hc)) (fun _ _ => hfinish _ _) g

theorem stretches_each {r : Frame → Frame → Prop} {finish : List Status → Frame → Script n}
    {children : List (Fin n)} (hr : ∀ f, r f f)
    (hfinish : ∀ statuses f, (finish statuses f).Stretches r f) (f : Frame) :
    (each finish children f).Stretches r f := by
  induction children generalizing finish f with
  | nil => exact hfinish [] f
  | cons child rest ih => exact ⟨hr f, fun status g => ih (fun _ _ => hfinish _ _) g⟩

theorem Stretches.imp {r r' : Frame → Frame → Prop} (hr : ∀ f g, r f g → r' f g) {s : Script n}
    {f : Frame} (h : s.Stretches r f) : s.Stretches r' f := by
  induction s generalizing f with
  | finish _ g => exact hr f g h
  | call child g next ih => exact ⟨hr f g h.1, fun status g => ih status g (h.2 status g)⟩

theorem Stretches.head {r : Frame → Frame → Prop} (htrans : ∀ {f g h}, r f g → r g h → r f h)
    {s : Script n} {f g : Frame} (h : r f g) (hs : s.Stretches r g) : s.Stretches r f := by
  cases s with
  | finish _ _ => exact htrans h hs
  | call _ _ _ => exact ⟨htrans h hs.1, hs.2⟩

/-- A transitive relation that holds over the stretches of a script and over the ticks that it asks
for holds over the whole of it. -/
theorem run_relates {r : Frame → Frame → Prop} {p : Fin n → Prop} {tick : Ticker n}
    (htrans : ∀ {f g h}, r f g → r g h → r f h) (htick : ∀ child, p child → ∀ f, r f (tick child f).2)
    {s : Script n} {f : Frame} (hs : s.Stretches r f) (hc : s.Calls p) : r f (s.run tick).2 := by
  induction s generalizing f with
  | finish _ g => exact hs
  | call child g next ih =>
    have hrest := ih _ _ (hs.2 (tick child g).1 (tick child g).2) (hc.2 _ _)
    exact htrans hs.1 (htrans (htick child hc.1 g) hrest)

end Script

namespace Composite

variable {n : Nat}

/-- What an ordered composite does with the result of the child at a position. -/
def proceed (id : String) (stopOn : Status) (position : Nat) (more : Frame → Script n) :
    Status → Frame → Script n
  | .running, f =>
    .finish .running (f.updateMemory id fun m => { m with currentIndex := position })
  | status, f =>
    if status = stopOn then .finish stopOn (f.updateMemory id .endRun) else more f

def scriptFrom (id : String) (stopOn : Status) (children : List (Fin n)) :
    (order : List Nat) → (position : Nat) → Frame → Script n
  | [], _, f => .finish stopOn.invert (f.updateMemory id .endRun)
  | place :: rest, position, f =>
    match children[place]? with
    | none => .finish .failure f
    | some child => .call child f <|
      proceed id stopOn position (scriptFrom id stopOn children rest (position + 1))

def orderedScript (id : String) (stopOn : Status) (shuffled : Bool) (children : List (Fin n))
    (f : Frame) : Script n :=
  let (order, f) :=
    if shuffled then drawnOrder id children.length f else (List.range children.length, f)
  let saved := (f.memory id).currentIndex
  let position := if saved < children.length then saved else 0
  scriptFrom id stopOn children (order.drop position) position f

def abreastScript (s : Settings) (children : List (Fin n)) (f : Frame) : Script n :=
  if children.isEmpty then .finish .success f
  else
    Script.each (fun statuses f =>
      .finish (verdict (s.text "successPolicy" = "one") (s.text "failurePolicy" = "all") statuses) f)
      children f

def script (c : Composite) (s : Settings) (children : List (Fin n)) (f : Frame) : Script n :=
  match c with
  | sequence => orderedScript s.node.id .failure false children f
  | selector => orderedScript s.node.id .success false children f
  | parallel => abreastScript s children f
  | randomSelector => orderedScript s.node.id .success true children f
  | randomSequence => orderedScript s.node.id .failure true children f

theorem proceed_of_ended {id : String} {stopOn : Status} {position : Nat} {more : Frame → Script n}
    {status : Status} (h : status ≠ .running) (f : Frame) :
    proceed id stopOn position more status f =
      if status = stopOn then .finish stopOn (f.updateMemory id .endRun) else more f := by
  cases status with
  | running => exact absurd rfl h
  | success | failure => rfl

theorem run_scriptFrom (id : String) (stopOn : Status) (children : List (Fin n)) (tick : Ticker n)
    (order : List Nat) (position : Nat) (f : Frame) :
    (scriptFrom id stopOn children order position f).run tick =
      runFrom id stopOn children tick order position f := by
  induction order generalizing position f with
  | nil => rfl
  | cons place rest ih =>
    rw [scriptFrom, runFrom]
    cases children[place]? with
    | none => rfl
    | some child =>
      simp only [Script.run]
      rcases tick child f with ⟨status, g⟩
      cases status with
      | running => rfl
      | success | failure =>
        dsimp only
        rw [proceed_of_ended (by decide)]
        split
        · rfl
        · exact ih (position + 1) g

theorem run_script (c : Composite) (s : Settings) (children : List (Fin n)) (tick : Ticker n)
    (f : Frame) : (c.script s children f).run tick = c.run s children tick f := by
  cases c with
  | parallel =>
    rw [script, abreastScript, run, abreast]
    split
    · rfl
    · rw [Script.run_each]
      rfl
  | sequence | selector | randomSelector | randomSequence => exact run_scriptFrom _ _ _ _ _ _ _

end Composite

namespace Decorator

variable {n : Nat}

def gateScript (s : Settings) (child? : Option (Fin n)) (f : Frame) : Script n :=
  let state := f.state s.node.id
  if state.runningTime - state.memory.lastExecutionTime < s.number "duration" then
    .finish .failure f
  else
    match child? with
    | none => .finish .failure f
    | some child => .call child f fun
      | .running, f => .finish .running f
      | status, f => .finish status <| f.updateState s.node.id fun state =>
          { state with memory := { state.memory with lastExecutionTime := state.runningTime } }

def limitTimeScript (m : Moment) (s : Settings) (child? : Option (Fin n)) (f : Frame) :
    Script n :=
  let state := f.state s.node.id
  let before := if state.status = .running then state.memory.elapsed else 0
  let elapsed := before + m.delta
  if s.number "timeout" ≤ elapsed then
    .finish .failure (f.updateMemory s.node.id fun m => { m with elapsed := 0 })
  else
    let f := f.updateMemory s.node.id fun m => { m with elapsed := elapsed }
    match child? with
    | none => .finish .failure f
    | some child => .call child f .finish

/-- Ticks a child, and does something with the result of a run that ended. -/
def afterRun (child : Fin n) (f : Frame) (done : Status → Frame → Status × Frame) : Script n :=
  .call child f fun
    | .running, f => .finish .running f
    | status, f => .finish (done status f).1 (done status f).2

def untilDone (awaited : Status) (s : Settings) (status : Status) (f : Frame) : Status × Frame :=
  if status = awaited then
    (.success, f.updateMemory s.node.id fun m => { m with iteration := 0 })
  else countRun s.node.id (s.count "maxIterations") awaited.invert f

def script (d : Decorator) (m : Moment) (s : Settings) (children : List (Fin n)) (f : Frame) :
    Script n :=
  match d, children.head? with
  | inverter, some child => .call child f fun status f => .finish status.invert f
  | succeeder, some child => afterRun child f fun _ f => (.success, f)
  | failer, some child => afterRun child f fun _ f => (.failure, f)
  | repeater, some child =>
    afterRun child f fun _ f => countRun s.node.id (s.count "count") .success f
  | repeatUntilFail, some child => afterRun child f (untilDone .failure s)
  | repeatUntilSuccess, some child => afterRun child f (untilDone .success s)
  | cooldown, child? => gateScript s child? f
  | timeout, child? => limitTimeScript m s child? f
  | succeeder, none => .finish .success f
  | inverter, none | failer, none | repeater, none | repeatUntilFail, none
  | repeatUntilSuccess, none => .finish .failure f

private theorem run_afterRun (child : Fin n) (f : Frame) (done : Status → Frame → Status × Frame)
    (tick : Ticker n) : (afterRun child f done).run tick =
      match tick child f with
      | (.running, f) => (.running, f)
      | (status, f) => done status f := by
  rw [afterRun, Script.run]
  rcases tick child f with ⟨status, g⟩
  cases status <;> rfl

private theorem run_gateScript (s : Settings) (child? : Option (Fin n)) (tick : Ticker n)
    (f : Frame) : (gateScript s child? f).run tick = gate s child? tick f := by
  simp only [gateScript, gate]
  split
  · rfl
  · cases child? with
    | none => rfl
    | some child =>
      simp only [Script.run]
      rcases tick child f with ⟨status, g⟩
      cases status <;> rfl

private theorem run_limitTimeScript (m : Moment) (s : Settings) (child? : Option (Fin n))
    (tick : Ticker n) (f : Frame) :
    (limitTimeScript m s child? f).run tick = limitTime m s child? tick f := by
  simp only [limitTimeScript, limitTime]
  generalize (if (f.state s.node.id).status = .running then (f.state s.node.id).memory.elapsed
    else 0) + m.delta = elapsed
  split
  · rfl
  · cases child? <;> rfl

theorem run_script (d : Decorator) (m : Moment) (s : Settings) (children : List (Fin n))
    (tick : Ticker n) (f : Frame) :
    (d.script m s children f).run tick = d.run m s children tick f := by
  rw [script.eq_def, run.eq_def]
  cases children.head? with
  | none =>
    cases d with
    | cooldown => exact run_gateScript s none tick f
    | timeout => exact run_limitTimeScript m s none tick f
    | inverter | succeeder | failer | repeater | repeatUntilFail | repeatUntilSuccess => rfl
  | some child =>
    cases d with
    | cooldown => exact run_gateScript s (some child) tick f
    | timeout => exact run_limitTimeScript m s (some child) tick f
    | inverter => rfl
    | succeeder | failer | repeater | repeatUntilFail | repeatUntilSuccess =>
      exact run_afterRun _ _ _ _

end Decorator

/-- The script of a node of a known type. -/
def script {n : Nat} (m : Moment) (s : Settings) (children : List (Fin n)) (f : Frame) :
    Script n :=
  match s.definition.kind with
  | .composite c => c.script s children f
  | .decorator d => d.script m s children f
  | .action a =>
    match f.world.get? m.agent with
    | none => .finish .failure f
    | some me => .finish (a.run m s me f).1 (a.run m s me f).2
  | .condition c => .finish (c.run m s f).1 (c.run m s f).2

/-- Dispatching a node runs its script. -/
theorem run_script {n : Nat} (m : Moment) (s : Settings) (children : List (Fin n))
    (tick : Ticker n) (f : Frame) :
    (script m s children f).run tick = dispatch m s children tick f := by
  rw [script, dispatch]
  cases s.definition.kind with
  | composite c => exact c.run_script s children tick f
  | decorator d => exact d.run_script m s children tick f
  | action a => cases f.world.get? m.agent <;> rfl
  | condition c => rfl

namespace Index

def enter (ix : Index) (m : Moment) (room : Nat) (p : Fin ix.size) (f : Frame) : Frame :=
  (f.note (.began (ix.name p) (ix.size - room))).updateState (ix.name p) fun s =>
    { s with runningTime := s.runningTime + m.delta }

def leave (ix : Index) (p : Fin ix.size) (status : Status) (f : Frame) : Frame :=
  (f.updateState (ix.name p) fun s => { s with status := status }).note (.ended (ix.name p) status)

/-- The script of the node at a position. -/
def script (ix : Index) (m : Moment) (p : Fin ix.size) (f : Frame) : Script ix.size :=
  match (ix.slot p).definition with
  | none => .finish .failure f
  | some d => BehaviorTree.script m ⟨(ix.slot p).node, d⟩ (ix.slot p).children f

section

variable {ix : Index} {p : Fin ix.size} {d : Definition}

theorem script_of_composite {c : Composite} (hd : (ix.slot p).definition = some d)
    (hkind : d.kind = .composite c) (m : Moment) (f : Frame) :
    ix.script m p f = c.script ⟨(ix.slot p).node, d⟩ (ix.slot p).children f := by
  simp only [script, hd, BehaviorTree.script, hkind]

theorem script_of_decorator {c : Decorator} (hd : (ix.slot p).definition = some d)
    (hkind : d.kind = .decorator c) (m : Moment) (f : Frame) :
    ix.script m p f = c.script m ⟨(ix.slot p).node, d⟩ (ix.slot p).children f := by
  simp only [script, hd, BehaviorTree.script, hkind]

theorem script_of_action {a : Action} (hd : (ix.slot p).definition = some d)
    (hkind : d.kind = .action a) (m : Moment) (f : Frame) :
    (f.world.get? m.agent = none → ix.script m p f = .finish .failure f) ∧
      ∀ me, f.world.get? m.agent = some me → ix.script m p f =
        .finish (a.run m ⟨(ix.slot p).node, d⟩ me f).1 (a.run m ⟨(ix.slot p).node, d⟩ me f).2 := by
  constructor
  · intro hme
    simp only [script, hd, BehaviorTree.script, hkind, hme]
  · intro me hme
    simp only [script, hd, BehaviorTree.script, hkind, hme]

end

end Index

theorem tick_zero (ix : Index) (m : Moment) (p : Fin ix.size) (f : Frame) :
    tick ix m 0 p f = (.failure, f.note (.tooDeep (ix.name p))) := rfl

/-- A tick enters the node, runs its script and records the result. -/
theorem tick_succ (ix : Index) (m : Moment) (room : Nat) (p : Fin ix.size) (f : Frame) :
    tick ix m (room + 1) p f =
      let done := (ix.script m p (ix.enter m room p f)).run (tick ix m room)
      (done.1, ix.leave p done.1 done.2) := by
  rw [tick, Index.script]
  cases (ix.slot p).definition with
  | none => rfl
  | some d =>
    dsimp only
    rw [run_script]
    rfl

end BehaviorTree
