import BehaviorTree.Proofs.Random.Shuffle
import BehaviorTree.Proofs.Tick.Alike
import BehaviorTree.Proofs.Tick.Locality
import BehaviorTree.Proofs.Tick.Visit
import Mathlib.Algebra.GroupWithZero.Nat

/-!
# Words drawn in ticks

Two kinds of nodes draw words: a random condition draws one, and a shuffled composite those of a new
order unless it has one that fits. They do so before they tick a child, and otherwise every node hands
the generator on as it is. So the generator of an executor tells how many words its ticks have drawn.
-/

namespace BehaviorTree

open Generator (advance)

/-- How many words a node of a kind draws itself in a tick, with so many children and what it
remembers. -/
def Kind.words (k : Kind) (count : Nat) (memory : Memory) : Nat :=
  match k with
  | .condition .random => 1
  | .composite .randomSelector | .composite .randomSequence =>
    if (memory.shuffledIndices.filter (·.length = count)).isSome then 0 else count - 1
  | _ => 0

private def Undrawn (f g : Frame) : Prop := g.generator = f.generator

private theorem Undrawn.trans {f g h : Frame} (hfg : Undrawn f g) (hgh : Undrawn g h) :
    Undrawn f h :=
  Eq.trans hgh hfg

section

variable {n : Nat} {m : Moment} {s : Settings} {f g : Frame}

private theorem undrawn_of_steadies (m : Moment) {script : Script n}
    (h : script.Stretches (Steadies m s) g) (hg : Undrawn f g) : script.Stretches Undrawn f :=
  .head (r := Undrawn) Undrawn.trans hg (h.imp fun _ _ => Steadies.generator)

theorem Action.generator_run (a : Action) (me : Entity) :
    (a.run m s me f).2.generator = f.generator := by
  have hself : f.Akin (· = ·) (· = ·) (fun g _ => g = f.generator) f :=
    ⟨rfl, rfl, rfl, rfl, rfl, rfl⟩
  exact (alike_action Blackboard.written_eq hself (Store.shows_eq _) a me).frame.generator

theorem Composite.generator_drawnOrder (id : String) (count : Nat) (f : Frame) :
    (drawnOrder id count f).2.generator = advance^[
      if ((f.memory id).shuffledIndices.filter (·.length = count)).isSome then 0
      else count - 1] f.generator := by
  rw [drawnOrder]
  cases (f.memory id).shuffledIndices.filter (·.length = count) with
  | some order => exact (Function.iterate_zero_apply advance f.generator).symm
  | none => exact congrArg Prod.snd (Generator.shuffle_eq count f.generator)

/-- A node draws its words first. From then on it leaves the generator alone, between and after the
ticks of its children. -/
private theorem stretches_undrawn (m : Moment) (s : Settings) (children : List (Fin n)) (f : Frame) :
    (script m s children f).Stretches Undrawn { f with
      generator := advance^[s.definition.kind.words children.length (f.memory s.node.id)]
        f.generator } := by
  rw [script]
  cases s.definition.kind with
  | composite c =>
    cases c with
    | sequence | selector => exact undrawn_of_steadies m (stretches_scriptFrom _ _ _ _ f) rfl
    | parallel => exact undrawn_of_steadies m (stretches_abreast children f) rfl
    | randomSelector | randomSequence =>
      exact undrawn_of_steadies m (stretches_scriptFrom _ _ _ _ _)
        (Composite.generator_drawnOrder s.node.id children.length f)
  | decorator d => exact undrawn_of_steadies m (stretches_decorator d children f) rfl
  | action a =>
    dsimp only
    cases f.world.get? m.agent with
    | none => exact rfl
    | some me => exact a.generator_run me
  | condition c => cases c <;> exact rfl

end

/-- Whether ticks of children hand a generator on until it is another: the first meets it, and each
further one that which the tick before left. -/
def HandsOn {n : Nat} : Generator → List (Call n) → Generator → Prop
  | g, [], g' => g' = g
  | g, c :: rest, g' => c.before.generator = g ∧ HandsOn c.after.generator rest g'

private theorem handsOn_of_undrawn {n : Nat} {tick : Ticker n} {s : Script n} {f : Frame}
    (h : s.Stretches Undrawn f) : HandsOn f.generator (s.calls tick) (s.run tick).2.generator := by
  induction s generalizing f with
  | finish _ _ => exact h
  | call child g next ih => exact ⟨h.1, ih _ _ (h.2 (tick child g).1 (tick child g).2)⟩

namespace Index

def wordsOf (ix : Index) (v : Visit ix.size) : Nat :=
  match (ix.slot v.node).definition with
  | none => 0
  | some d => d.kind.words (ix.slot v.node).children.length (v.before.memory (ix.name v.node))

variable (ix : Index) (m : Moment) (room : Nat) (p : Fin ix.size) (f : Frame)

/-- The frame in which a node starts its first tick of a child, up to what it remembers. -/
private def drawnFrame : Frame :=
  { ix.enter m room p f with generator := advance^[ix.wordsOf (ix.visit m room p f)] f.generator }

private theorem undrawn_script :
    (ix.script m p (ix.enter m room p f)).Stretches Undrawn (ix.drawnFrame m room p f) := by
  have hwords : ix.wordsOf (ix.visit m room p f) = match (ix.slot p).definition with
      | none => 0
      | some d => d.kind.words (ix.slot p).children.length (f.memory (ix.name p)) := rfl
  rw [script, drawnFrame, hwords]
  cases (ix.slot p).definition with
  | none => exact rfl
  | some d =>
    rw [← memory_enter m room p f]
    exact stretches_undrawn m ⟨(ix.slot p).node, d⟩ (ix.slot p).children (ix.enter m room p f)

theorem handsOn_visit :
    let v := ix.visit m room p f
    HandsOn (advance^[ix.wordsOf v] f.generator) v.calls v.after.generator := by
  intro v
  dsimp only [v, visit]
  rw [tick_succ]
  exact handsOn_of_undrawn (undrawn_script ix m room p f)

/-- A tick draws the words of its visits. -/
theorem generator_tick :
    (tick ix m room p f).2.generator =
      advance^[((ix.visits m room p f).map ix.wordsOf).sum] f.generator := by
  induction room generalizing p f with
  | zero => exact rfl
  | succ room ih =>
    rw [tick_succ, visits, List.map_cons, List.sum_cons, Nat.add_comm, Function.iterate_add_apply,
      List.map_flatMap]
    refine Script.run_tells (r := fun f words g => g.generator = advance^[words.sum] f.generator)
      ?_ (fun c _ f => ih c f) (undrawn_script ix m room p f) (calls_script ix m p _)
    intro f g h xs ys hfg hgh
    rw [hgh, hfg, List.sum_append, Nat.add_comm, Function.iterate_add_apply]

end Index

end BehaviorTree
