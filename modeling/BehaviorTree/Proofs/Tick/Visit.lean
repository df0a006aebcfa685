import BehaviorTree.Proofs.Executor.Run

/-!
# Visits

The ticks of nodes during the tick of a tree, each with the frames before and after it, its result
and the ticks of children that it asked for. They are the ticks that the journal tells of, in the
order in which they begin.
-/

namespace BehaviorTree

open Relation

/-- The tick of a child that a node asked for. -/
structure Call (n : Nat) where
  child : Fin n
  before : Frame
  status : Status
  after : Frame

/-- The tick of a node. -/
structure Visit (n : Nat) where
  node : Fin n
  depth : Nat
  before : Frame
  calls : List (Call n)
  status : Status
  after : Frame

def Visit.results {n : Nat} (v : Visit n) : List (Fin n × Status) :=
  v.calls.map fun c => (c.child, c.status)

namespace Script

variable {n : Nat}

/-- The ticks that a script asks for. -/
def calls (tick : Ticker n) : Script n → List (Call n)
  | finish _ _ => []
  | call child f next =>
    ⟨child, f, (tick child f).1, (tick child f).2⟩ ::
      (next (tick child f).1 (tick child f).2).calls tick

theorem of_mem_calls {tick : Ticker n} {p : Fin n → Prop} {s : Script n} (h : s.Calls p) :
    ∀ c ∈ s.calls tick, p c.child := by
  induction s with
  | finish _ _ => simp [calls]
  | call child f next ih =>
    intro c hc
    rcases List.mem_cons.mp hc with rfl | hc
    · exact h.1
    · exact ih _ _ (h.2 _ _) c hc

/-- What holds over every stretch of a script with nothing to tell of it, and over every tick that it
asks for with something to tell of that, holds over the whole with all of it told in order. -/
theorem run_tells {κ : Type} {r : Frame → List κ → Frame → Prop} {tick : Ticker n}
    {p : Fin n → Prop} {tell : Fin n → Frame → List κ}
    (happend : ∀ {f g h xs ys}, r f xs g → r g ys h → r f (xs ++ ys) h)
    (htick : ∀ child, p child → ∀ f, r f (tell child f) (tick child f).2) {s : Script n} {f : Frame}
    (hs : s.Stretches (r · []) f) (hc : s.Calls p) :
    r f ((s.calls tick).flatMap fun c => tell c.child c.before) (s.run tick).2 := by
  induction s generalizing f with
  | finish _ g => exact hs
  | call child g next ih =>
    have hrest := ih _ _ (hs.2 (tick child g).1 (tick child g).2) (hc.2 _ _)
    have hall := happend hs.1 (happend (htick child hc.1 g) hrest)
    exact hall

end Script

namespace Decorator

variable {n : Nat} (tick : Ticker n) (child : Fin n) (f : Frame)
  (done : Status → Frame → Status × Frame)

theorem calls_afterRun : (afterRun child f done).calls tick =
    [⟨child, f, (tick child f).1, (tick child f).2⟩] := by
  rw [afterRun, Script.calls]
  cases (tick child f).1 <;> rfl

theorem run_afterRun_eq : (afterRun child f done).run tick =
    if (tick child f).1 = .running then (.running, (tick child f).2)
    else done (tick child f).1 (tick child f).2 := by
  rw [afterRun, Script.run]
  cases (tick child f).1 <;> rfl

end Decorator

namespace Index

/-- The tick of the node at a position, where `room` more nodes may be ticked within it. -/
def visit (ix : Index) (m : Moment) (room : Nat) (p : Fin ix.size) (f : Frame) :
    Visit ix.size where
  node := p
  depth := ix.size - room
  before := f
  calls := (ix.script m p (ix.enter m room p f)).calls (tick ix m room)
  status := (tick ix m (room + 1) p f).1
  after := (tick ix m (room + 1) p f).2

/-- The ticks of nodes during the tick of the node at a position, that one first. -/
def visits (ix : Index) (m : Moment) : (room : Nat) → Fin ix.size → Frame → List (Visit ix.size)
  | 0, _, _ => []
  | room + 1, p, f =>
    ix.visit m room p f ::
      (ix.visit m room p f).calls.flatMap fun c => visits ix m room c.child c.before

variable {ix : Index} {m : Moment}

theorem calls_script (ix : Index) (m : Moment) (p : Fin ix.size) (f : Frame) :
    (ix.script m p f).Calls (ix.Edge p) := by
  rw [script]
  cases (ix.slot p).definition with
  | none => trivial
  | some d => exact BehaviorTree.calls_script m ⟨(ix.slot p).node, d⟩ (ix.slot p).children f

theorem edge_of_mem_calls {room : Nat} {p : Fin ix.size} {f : Frame} {c : Call ix.size}
    (hc : c ∈ (ix.visit m room p f).calls) : ix.Edge p c.child :=
  Script.of_mem_calls (calls_script ix m p _) c hc

theorem mem_visits {room : Nat} {p : Fin ix.size} {f : Frame} {v : Visit ix.size}
    (h : v ∈ ix.visits m room p f) :
    ReflTransGen ix.Edge p v.node ∧ ∃ room g, v = ix.visit m room v.node g := by
  induction room generalizing p f with
  | zero => simp [visits] at h
  | succ room ih =>
    rcases List.mem_cons.mp h with rfl | h
    · exact ⟨.refl, room, f, rfl⟩
    · obtain ⟨c, hc, hv⟩ := List.mem_flatMap.mp h
      obtain ⟨hreach, hvisit⟩ := ih hv
      exact ⟨.head (edge_of_mem_calls hc) hreach, hvisit⟩

end Index

def begun (journal : Array Entry) : List (String × Nat) :=
  journal.toList.filterMap fun
    | .began id depth => some (id, depth)
    | _ => none

private theorem begun_push (journal : Array Entry) (entry : Entry) :
    begun (journal.push entry) = begun journal ++ begun #[entry] := by
  simp [begun]

section

variable {κ : Type} {tell : Entry → Option κ}

theorem Effect.filterMap_journal {m : Moment} {s : Settings} {f g : Frame} (h : Effect m s f g)
    (hshuffled : ∀ id count, tell (.shuffled id count) = none)
    (hlogged : ∀ message, tell (.logged message) = none) :
    g.journal.toList.filterMap tell = f.journal.toList.filterMap tell := by
  rcases h.journal with hj | ⟨id, count, hj⟩ | ⟨message, hj⟩
  · rw [hj]
  · simp [hj, hshuffled]
  · simp [hj, hlogged]

theorem Index.filterMap_stretches (hshuffled : ∀ id count, tell (.shuffled id count) = none)
    (hlogged : ∀ message, tell (.logged message) = none) (ix : Index) (m : Moment) (p : Fin ix.size)
    (f : Frame) : (ix.script m p f).Stretches (fun f g =>
      g.journal.toList.filterMap tell = f.journal.toList.filterMap tell ++ []) f := by
  rw [script]
  cases (ix.slot p).definition with
  | none => exact (List.append_nil _).symm
  | some d =>
    refine (stretches_script m ⟨(ix.slot p).node, d⟩ (ix.slot p).children f).imp ?_
    intro f g h
    rw [List.append_nil]
    induction h with
    | refl => rfl
    | tail _ hstep ih => exact (hstep.filterMap_journal hshuffled hlogged).trans ih

end

namespace Index

/-- The visits of a tick are the ticks that it tells the journal of. -/
theorem begun_tick (ix : Index) (m : Moment) (room : Nat) (p : Fin ix.size) (f : Frame) :
    begun (tick ix m room p f).2.journal =
      begun f.journal ++ (ix.visits m room p f).map fun v => (ix.name v.node, v.depth) := by
  induction room generalizing p f with
  | zero =>
    rw [tick_zero, visits, Frame.note, begun_push]
    rfl
  | succ room ih =>
    have hscript := Script.run_tells (r := fun f xs g => begun g.journal = begun f.journal ++ xs)
      (by intro f g h xs ys hfg hgh; rw [hgh, hfg, List.append_assoc]) (fun c _ f => ih c f)
      (filterMap_stretches (fun _ _ => rfl) (fun _ => rfl) ix m p (ix.enter m room p f))
      (calls_script ix m p _)
    have henter : begun (ix.enter m room p f).journal =
        begun f.journal ++ [(ix.name p, ix.size - room)] := begun_push f.journal _
    have hleave : ∀ status g, begun (ix.leave p status g).journal = begun g.journal := by
      intro status g
      exact (begun_push _ _).trans (List.append_nil _)
    rw [tick_succ, visits, List.map_cons, List.map_flatMap]
    dsimp only
    rw [hleave, hscript, henter, List.append_assoc]
    rfl

variable {ix : Index} {m : Moment}

section

variable {p : Fin ix.size} {d : Definition} {a : Action}

theorem surroundings_visit (hd : (ix.slot p).definition = some d) (ha : d.kind = .action a)
    (room : Nat) (f : Frame) :
    let v := ix.visit m room p f
    let done := fun me => a.run m ⟨(ix.slot p).node, d⟩ me (ix.enter m room p f)
    (f.world.get? m.agent = none → v.status = .failure ∧ v.after.surroundings = f.surroundings) ∧
      ∀ me, f.world.get? m.agent = some me →
        v.status = (done me).1 ∧ v.after.surroundings = (done me).2.surroundings := by
  obtain ⟨habsent, hpresent⟩ := script_of_action hd ha m (ix.enter m room p f)
  dsimp only
  rw [visit, tick_succ]
  constructor
  · intro hme
    rw [habsent hme]
    exact ⟨rfl, rfl⟩
  · intro me hme
    rw [hpresent me hme]
    exact ⟨rfl, rfl⟩

private theorem calls_visit (hd : (ix.slot p).definition = some d) (ha : d.kind = .action a)
    (room : Nat) (f : Frame) : (ix.visit m room p f).calls = [] := by
  obtain ⟨habsent, hpresent⟩ := script_of_action hd ha m (ix.enter m room p f)
  rw [visit]
  cases hme : (ix.enter m room p f).world.get? m.agent with
  | none => rw [habsent hme, Script.calls]
  | some me => rw [hpresent me hme, Script.calls]

private theorem surroundings_stretches
    (h : ∀ d a, (ix.slot p).definition = some d → d.kind ≠ .action a) (f : Frame) :
    (ix.script m p f).Stretches (fun f g => g.surroundings = f.surroundings) f := by
  rw [script]
  cases hd : (ix.slot p).definition with
  | none => rfl
  | some d =>
    have hinwards := stretches_inwards m (s := ⟨(ix.slot p).node, d⟩) (fun a => h d a hd)
      (ix.slot p).children f
    exact hinwards.imp fun _ _ hstep => hstep.surroundings

end

/-- What the visits of actions tell of the surroundings of a tree, the visits of a tick tell in order. -/
theorem surroundings_tell {κ : Type} {r : Surroundings → List κ → Surroundings → Prop}
    {tell : Visit ix.size → List κ} (hrefl : ∀ o, r o [] o)
    (happend : ∀ {o o' o'' xs ys}, r o xs o' → r o' ys o'' → r o (xs ++ ys) o'')
    (haction : ∀ {p d a}, (ix.slot p).definition = some d → d.kind = .action a → ∀ room f,
      r f.surroundings (tell (ix.visit m room p f)) (ix.visit m room p f).after.surroundings)
    (hother : ∀ v, (∀ d a, (ix.slot v.node).definition = some d → d.kind ≠ .action a) → tell v = [])
    (room : Nat) (p : Fin ix.size) (f : Frame) :
    r f.surroundings ((ix.visits m room p f).flatMap tell) (tick ix m room p f).2.surroundings := by
  induction room generalizing p f with
  | zero => exact hrefl f.surroundings
  | succ room ih =>
    by_cases h : ∃ d a, (ix.slot p).definition = some d ∧ d.kind = .action a
    · obtain ⟨d, a, hd, ha⟩ := h
      rw [visits, calls_visit hd ha, List.flatMap_nil, List.flatMap_singleton]
      exact haction hd ha room f
    · simp only [not_exists, not_and] at h
      have hquiet : ∀ f g : Frame, g.surroundings = f.surroundings →
          r f.surroundings [] g.surroundings := fun f g hfg => hfg ▸ hrefl f.surroundings
      have hstretches := (surroundings_stretches (m := m) h (ix.enter m room p f)).imp hquiet
      have hscript := Script.run_tells (r := fun f xs g => r f.surroundings xs g.surroundings)
        happend (fun c _ f => ih c f) hstretches (calls_script ix m p _)
      rw [visits, List.flatMap_cons, hother (ix.visit m room p f) h, List.nil_append,
        List.flatMap_assoc, tick_succ]
      exact hscript

end Index

namespace Executor

def visits (e : Executor) (ix : Index) (i : Input) : List (Visit ix.size) :=
  match ix.root with
  | none => []
  | some root => ix.visits ⟨i.agent, clampStep i.dt⟩ (ix.size + 1) root (e.start i.scene)

def history (ix : Index) : Executor → List Input → List (Visit ix.size)
  | _, [] => []
  | e, i :: rest => e.visits ix i ++ history ix (e.execute i.agent i.dt i.scene).executor rest

theorem begun_execute (e : Executor) (i : Input) :
    begun (e.execute i.agent i.dt i.scene).journal =
      (e.visits e.currentIndex i).map fun v => (e.currentIndex.name v.node, v.depth) := by
  rw [visits]
  cases hroot : e.currentIndex.root with
  | none =>
    rw [execute_of_rootless hroot]
    rfl
  | some root =>
    rw [execute_of_root hroot]
    exact (Index.begun_tick _ _ _ root _).trans (List.nil_append _)

end Executor

end BehaviorTree
