import BehaviorTree.Proofs.Tick.Alike
import BehaviorTree.Proofs.Tick.Pass

/-!
# Duality of ordered composites

Sequences and selectors differ in nothing but the status that ends their run. So where all results of
the children are inverted, the one does what the other would have done without that, and its own
result is inverted too. This holds of running children as well, since running is its own inverse.
-/

namespace BehaviorTree

namespace Composite

variable {n : Nat} {id : String} {children : List (Fin n)} {tick : Ticker n}

/-- The ordered composite that ends its runs on the opposite status. -/
def dual : Composite → Composite
  | sequence => selector
  | selector => sequence
  | randomSequence => randomSelector
  | randomSelector => randomSequence
  | parallel => parallel

theorem ordering?_dual {c : Composite} {stopOn : Status} {shuffled : Bool}
    (h : c.ordering? = some (stopOn, shuffled)) :
    c.dual.ordering? = some (stopOn.invert, shuffled) := by
  cases c <;> cases h <;> rfl

theorem run_of_ordering {c : Composite} {stopOn : Status} {shuffled : Bool}
    (h : c.ordering? = some (stopOn, shuffled)) (s : Settings) (f : Frame) :
    c.run s children tick f = ordered s.node.id stopOn shuffled children tick f := by
  cases c <;> cases h <;> rfl

private theorem runFrom_invert {order : List Nat} (h : ∀ place ∈ order, place < children.length)
    (stopOn : Status) (position : Nat) (f : Frame) :
    runFrom id stopOn.invert children (Decorator.invert · tick) order position f =
      ((runFrom id stopOn children tick order position f).1.invert,
        (runFrom id stopOn children tick order position f).2) := by
  induction order generalizing position f with
  | nil => rfl
  | cons place rest ih =>
    obtain ⟨child, hchild⟩ : ∃ child, children[place]? = some child :=
      ⟨_, List.getElem?_eq_getElem (h place List.mem_cons_self)⟩
    rw [runFrom, runFrom, hchild]
    dsimp only [Decorator.invert]
    generalize tick child f = done
    obtain ⟨status, g⟩ := done
    cases status with
    | running => rfl
    | success | failure =>
      dsimp only [Status.invert]
      have hrest := ih (fun q hq => h q (List.mem_cons_of_mem place hq)) (position + 1) g
      cases stopOn with
      | success | failure | running => first | rfl | exact hrest

/-- The law of duality. -/
theorem ordered_invert {f : Frame} (h : (f.memory id).Sound) (stopOn : Status) (shuffled : Bool) :
    ordered id stopOn.invert shuffled children (Decorator.invert · tick) f =
      ((ordered id stopOn shuffled children tick f).1.invert,
        (ordered id stopOn shuffled children tick f).2) := by
  rw [ordered, ordered]
  apply runFrom_invert
  intro place hplace
  have hmem := List.mem_of_mem_drop hplace
  cases shuffled with
  | false => exact List.mem_range.mp hmem
  | true => exact List.mem_range.mp ((h.perm_drawnOrder children.length).mem_iff.mp hmem)

end Composite

namespace Index

variable {ix : Index} {m : Moment} {room : Nat} {p : Fin ix.size} {f : Frame}

theorem tick_ordered {d : Definition} (hd : (ix.slot p).definition = some d) {c : Composite}
    (hkind : d.kind = .composite c) {stopOn : Status} {shuffled : Bool}
    (h : c.ordering? = some (stopOn, shuffled)) :
    tick ix m (room + 1) p f =
      let done := Composite.ordered (ix.name p) stopOn shuffled (ix.slot p).children
        (tick ix m room) (ix.enter m room p f)
      (done.1, ix.leave p done.1 done.2) := by
  rw [tick_succ, script, hd]
  dsimp only
  rw [run_script, dispatch, hkind]
  dsimp only
  rw [Composite.run_of_ordering h]
  rfl

/-- Whether the node at a position inverts the node at another one. -/
def Inverts (ix : Index) (p c : Fin ix.size) : Prop :=
  (∃ d, (ix.slot p).definition = some d ∧ d.kind = .decorator .inverter) ∧
    (ix.slot p).children = [c]

theorem Inverts.tick {c : Fin ix.size} (h : ix.Inverts p c) :
    tick ix m (room + 1) p f =
      let done := BehaviorTree.tick ix m room c (ix.enter m room p f)
      (done.1.invert, ix.leave p done.1.invert done.2) := by
  obtain ⟨⟨d, hd, hkind⟩, hchildren⟩ := h
  rw [tick_succ, script, hd]
  dsimp only
  rw [run_script, dispatch, hkind, hchildren]
  rfl

end Index

end BehaviorTree
