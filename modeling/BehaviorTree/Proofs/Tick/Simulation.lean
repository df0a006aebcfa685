import BehaviorTree.Proofs.Tick.Alike
import BehaviorTree.Proofs.Tick.Reading

/-!
# Simulations between trees

Positions of two child indexes correspond if they have nodes of one name and one type that agree on what
they read, and corresponding children. Then they are ticked alike, as long as neither side runs out of
room before the other.
-/

namespace BehaviorTree

variable {V : Blackboard → Blackboard → Prop} {S : Store → Store → Prop}
  {G : Generator → Generator → Prop} {f g : Frame} {m : Moment}

/-- Whether two slots have nodes of one name and one definition that agree on what they read, and
related children. -/
structure SameSlot {n n' : Nat} (C : Fin n → Fin n' → Prop) (a : Slot n) (b : Slot n') : Prop where
  name : a.node.id = b.node.id
  definition : a.definition = b.definition
  settings : ∀ d ∈ a.definition, Settings.AgreeOn d.kind.reads ⟨a.node, d⟩ ⟨b.node, d⟩
  children : List.Forall₂ C a.children b.children

namespace SameSlot

variable {n n' : Nat} {C D : Fin n → Fin n' → Prop} {a : Slot n} {b : Slot n'}

theorem of_node (hnode : a.node = b.node) (hdefinition : a.definition = b.definition)
    (hchildren : List.Forall₂ C a.children b.children) : SameSlot C a b where
  name := congrArg Node.id hnode
  definition := hdefinition
  settings d _ := hnode ▸ Settings.AgreeOn.refl d.kind.reads ⟨a.node, d⟩
  children := hchildren

theorem imp (h : SameSlot C a b) (hCD : ∀ c c', C c c' → D c c') : SameSlot D a b :=
  { h with children := h.children.imp hCD }

end SameSlot

namespace Index

variable {ix ix' : Index}

theorem akin_enter {p : Fin ix.size} {p' : Fin ix'.size} (hname : ix.name p = ix'.name p')
    (hS : Store.Shows S (ix.name p)) (room room' : Nat) (h : f.Akin V S G g) :
    (ix.enter m room p f).Akin V S G (ix'.enter m room' p' g) := by
  rw [enter, enter, ← hname]
  apply Frame.Akin.updateState _ hS
  apply h.note
  rfl

theorem akin_leave {p : Fin ix.size} {p' : Fin ix'.size} (hname : ix.name p = ix'.name p')
    (hS : Store.Shows S (ix.name p)) (status : Status) (h : f.Akin V S G g) :
    (ix.leave p status f).Akin V S G (ix'.leave p' status g) := by
  rw [leave, leave, ← hname]
  exact (h.updateState hS _).note rfl

/-- Positions of one name and one definition are ticked alike if their nodes are dispatched alike. -/
theorem akin_tick_of_dispatch {p : Fin ix.size} {p' : Fin ix'.size}
    (hname : ix.name p = ix'.name p')
    (hdefinition : (ix.slot p).definition = (ix'.slot p').definition)
    (hS : Store.Shows S (ix.name p)) {room room' : Nat}
    (hdispatch : ∀ d ∈ (ix.slot p).definition, ∀ f g, f.Akin V S G g →
      Alike (Frame.Akin V S G)
        (dispatch m ⟨(ix.slot p).node, d⟩ (ix.slot p).children (tick ix m room) f)
        (dispatch m ⟨(ix'.slot p').node, d⟩ (ix'.slot p').children (tick ix' m room') g))
    (h : f.Akin V S G g) :
    Alike (Frame.Akin V S G) (tick ix m (room + 1) p f) (tick ix' m (room' + 1) p' g) := by
  have henter := akin_enter hname hS (m := m) room room' h
  rw [tick_succ, tick_succ, script, script, ← hdefinition]
  cases hd : (ix.slot p).definition with
  | none => exact .of (akin_leave hname hS _ henter)
  | some d =>
    dsimp only
    rw [run_script, run_script]
    obtain ⟨hstatus, hframe⟩ := hdispatch d hd _ _ henter
    rw [← hstatus]
    exact .of (akin_leave hname hS _ hframe)

theorem akin_tick_succ {C : Fin ix.size → Fin ix'.size → Prop} {p : Fin ix.size}
    {p' : Fin ix'.size} (hV : Blackboard.Written V) (hslot : SameSlot C (ix.slot p) (ix'.slot p'))
    (hS : Store.Shows S (ix.name p))
    (hG : ∀ d ∈ (ix.slot p).definition, d.kind.draws = true → G = (· = ·)) {room room' : Nat}
    (htick : TicksAlike C (Frame.Akin V S G) (tick ix m room) (tick ix' m room'))
    (h : f.Akin V S G g) :
    Alike (Frame.Akin V S G) (tick ix m (room + 1) p f) (tick ix' m (room' + 1) p' g) := by
  apply akin_tick_of_dispatch hslot.name hslot.definition hS _ h
  intro d hd f g h
  rw [← dispatch_congr (s := ⟨(ix.slot p).node, d⟩) (hslot.settings d hd)]
  exact akin_dispatch (s := ⟨(ix.slot p).node, d⟩) hV hS (hG d hd) htick hslot.children h

theorem alike_tick_succ {C : Fin ix.size → Fin ix'.size → Prop} {p : Fin ix.size}
    {p' : Fin ix'.size} (hslot : SameSlot C (ix.slot p) (ix'.slot p'))
    (hS : Store.Shows S (ix.name p))
    (hG : ∀ d ∈ (ix.slot p).definition, d.kind.draws = true → G = (· = ·)) {room room' : Nat}
    (htick : TicksAlike C (Frame.Like S G) (tick ix m room) (tick ix' m room'))
    (h : f.Like S G g) :
    Alike (Frame.Like S G) (tick ix m (room + 1) p f) (tick ix' m (room' + 1) p' g) := by
  rw [Frame.like_eq_akin] at htick h ⊢
  exact akin_tick_succ Blackboard.written_eq hslot hS hG htick h

/-- A relation between positions, each with the room that is left there, that is kept from nodes to
their children. -/
structure Simulates (ix ix' : Index) (S : Store → Store → Prop) (G : Generator → Generator → Prop)
    (C : Nat → Fin ix.size → Nat → Fin ix'.size → Prop) : Prop where
  room {room p room' p'} : C room p room' p' → (room = 0 ↔ room' = 0)
  slot {room p room' p'} : C (room + 1) p (room' + 1) p' →
    SameSlot (fun c c' => C room c room' c') (ix.slot p) (ix'.slot p')
  shows {room p room' p'} : C room p room' p' → Store.Shows S (ix.name p)
  draws {room p room' p'} : C room p room' p' →
    ∀ d ∈ (ix.slot p).definition, d.kind.draws = true → G = (· = ·)

/-- Positions that a simulation relates are ticked alike, whatever is saved. -/
theorem Simulates.akin_tick {C : Nat → Fin ix.size → Nat → Fin ix'.size → Prop}
    (h : Simulates ix ix' S G C) (hV : Blackboard.Written V) {room : Nat} {p : Fin ix.size}
    {room' : Nat} {p' : Fin ix'.size} (hC : C room p room' p') (hf : f.Akin V S G g) :
    Alike (Frame.Akin V S G) (tick ix m room p f) (tick ix' m room' p' g) := by
  induction room generalizing p room' p' f g with
  | zero =>
    obtain rfl := (h.room hC).mp rfl
    exact .of (hf.note rfl)
  | succ room ih =>
    cases room' with
    | zero => exact absurd ((h.room hC).mpr rfl) (Nat.succ_ne_zero room)
    | succ room' =>
      apply akin_tick_succ hV (h.slot hC) (h.shows hC) (h.draws hC) _ hf
      intro c c' hc f g hf
      exact ih hc hf

theorem Simulates.alike_tick {C : Nat → Fin ix.size → Nat → Fin ix'.size → Prop}
    (h : Simulates ix ix' S G C) {room : Nat} {p : Fin ix.size} {room' : Nat} {p' : Fin ix'.size}
    (hC : C room p room' p') (hf : f.Like S G g) :
    Alike (Frame.Like S G) (tick ix m room p f) (tick ix' m room' p' g) := by
  rw [Frame.like_eq_akin] at hf ⊢
  exact h.akin_tick Blackboard.written_eq hC hf

end Index

end BehaviorTree
