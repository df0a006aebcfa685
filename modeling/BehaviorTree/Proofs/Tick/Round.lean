import BehaviorTree.Proofs.Tick.Pass
import BehaviorTree.Proofs.Tick.Thread
import Mathlib.Data.List.TakeDrop

/-!
# Rounds

The ticks of an ordered composite, over a whole run of its tree, fall into rounds, each of which ends
with a tick that is not running. A round goes once through the children in one order: it ticks a
child again only while that is running, and starts with an order of its own.
-/

namespace BehaviorTree

variable {n : Nat}

/-- Cuts visits into rounds, behind each that is not running. -/
def rounds : List (Visit n) → List (List (Visit n))
  | [] => []
  | v :: rest =>
    if v.status = .running then
      match rounds rest with
      | [] => [[v]]
      | round :: more => (v :: round) :: more
    else [v] :: rounds rest

/-- Visits that pass along a row from a position on, each from where the one before was running. The
last of them is not running, or else the last of all. -/
inductive Round (stopOn : Status) (row : List (Fin n)) : (position : Nat) → List (Visit n) → Prop
    where
  | ended {position last : Nat} {v : Visit n} (hstatus : v.status ≠ .running)
      (h : Pass stopOn row position v.results v.status last) : Round stopOn row position [v]
  | paused {position last : Nat} {v : Visit n} (hstatus : v.status = .running)
      (h : Pass stopOn row position v.results v.status last) : Round stopOn row position [v]
  | resumed {position last : Nat} {v : Visit n} {rest : List (Visit n)} (hstatus : v.status = .running)
      (h : Pass stopOn row position v.results v.status last) (hrest : Round stopOn row last rest) :
      Round stopOn row position (v :: rest)

def completed (vs : List (Visit n)) : List (Fin n) :=
  vs.flatMap fun v => (v.results.filter (·.2 ≠ .running)).map (·.1)

private theorem take_succ_drop {row : List (Fin n)} {position : Nat} {child : Fin n}
    (h : row[position]? = some child) {count : Nat} (hcount : position < count) :
    (row.take count).drop position = child :: (row.take count).drop (position + 1) := by
  obtain ⟨hlt, rfl⟩ := List.getElem?_eq_some_iff.mp h
  rw [List.drop_eq_getElem_cons (by rw [List.length_take]; omega), List.getElem_take]

private theorem drop_take_append {row : List (Fin n)} {i j k : Nat} (hij : i ≤ j) (hjk : j ≤ k) :
    (row.take j).drop i ++ (row.take k).drop j = (row.take k).drop i := by
  obtain ⟨m, rfl⟩ := Nat.exists_eq_add_of_le hij
  have htake : row.take (i + m) = (row.take k).take (i + m) := by
    rw [List.take_take, Nat.min_eq_left hjk]
  rw [htake, List.drop_take, Nat.add_sub_cancel_left, List.drop_take_append_drop]

theorem Pass.completed {stopOn : Status} (hstop : stopOn ≠ .running) {row : List (Fin n)}
    {position last : Nat} {results : List (Fin n × Status)} {status : Status}
    (h : Pass stopOn row position results status last) :
    ∃ count, position ≤ count ∧ (status = .running → count = last) ∧
      (results.filter (·.2 ≠ .running)).map (·.1) = (row.take count).drop position := by
  have hinvert := invert_ne_running hstop
  induction h with
  | @running position child h =>
    exact ⟨position, le_rfl, fun _ => rfl, by simp⟩
  | @stopped position child h =>
    refine ⟨position + 1, by omega, fun hrunning => absurd hrunning hstop, ?_⟩
    rw [take_succ_drop h (by omega)]
    simp [hstop]
  | @exhausted position child h hlast =>
    refine ⟨position + 1, by omega, fun hrunning => absurd hrunning hinvert, ?_⟩
    rw [take_succ_drop h (by omega)]
    simp [hinvert]
  | @next position last child results status h rest ih =>
    obtain ⟨count, hcount, hlast, heq⟩ := ih
    refine ⟨count, by omega, hlast, ?_⟩
    rw [take_succ_drop h (by omega), ← heq, List.filter_cons_of_pos (by simpa using hinvert)]
    rfl

/-- The children that end a run in a round are those from its position on, up to one. -/
theorem Round.completed {stopOn : Status} (hstop : stopOn ≠ .running) {row : List (Fin n)}
    {position : Nat} {vs : List (Visit n)} (h : Round stopOn row position vs) :
    ∃ count, position ≤ count ∧ completed vs = (row.take count).drop position := by
  induction h with
  | ended _ h | paused _ h =>
    obtain ⟨count, hcount, -, heq⟩ := h.completed hstop
    exact ⟨count, hcount, by rw [BehaviorTree.completed, List.flatMap_singleton, heq]⟩
  | @resumed position last v rest hstatus h _ ih =>
    obtain ⟨first, hfirst, hlast, heq⟩ := h.completed hstop
    obtain ⟨count, hcount, hrest⟩ := ih
    have hfirst' := hlast hstatus
    subst hfirst'
    refine ⟨count, by omega, ?_⟩
    rw [BehaviorTree.completed] at hrest ⊢
    rw [List.flatMap_cons, heq, hrest, drop_take_append hfirst hcount]

/-- A round goes through the children in an order from its first position on, in that in which they
stand or one drawn in its first tick, and no child ends a run twice in it. -/
structure IsRound (stopOn : Status) (shuffled : Bool) (children : List (Fin n)) (order : List Nat)
    (round : List (Visit n)) : Prop where
  perm : order.Perm (List.range children.length)
  drawn : ∀ v ∈ round.head?, order = drawn shuffled children.length v.before.generator
  plain : shuffled = false → arranged children order = children
  passes : Round stopOn (arranged children order) 0 round
  once : ∃ count, completed round = (arranged children order).take count

/-- Whether visits pass from where the memory of their node says, and leave in it where they end. -/
def Lawful (id : String) (stopOn : Status) (shuffled : Bool) (children : List (Fin n))
    (v : Visit n) : Prop :=
  ∀ order position,
    (v.before.memory id).GoesOn shuffled children.length v.before.generator order position →
      ∃ last < order.length, Pass stopOn (arranged children order) position v.results v.status last ∧
        (v.after.memory id).Leaves shuffled order v.status last

section

variable {id : String} {stopOn : Status} {shuffled : Bool} {children : List (Fin n)}

/-- Whether visits fall into rounds, the first of which goes on where a memory says. -/
private def Continues (stopOn : Status) (shuffled : Bool) (children : List (Fin n)) (m : Memory)
    (vs : List (Visit n)) : Prop :=
  (m.Fresh → ∀ round ∈ rounds vs, ∃ order, IsRound stopOn shuffled children order round) ∧
    ∀ order position, m.Paused shuffled order position → position < children.length →
      order.Perm (List.range children.length) →
      (shuffled = false → order = List.range children.length) →
      ∀ round more, rounds vs = round :: more →
        Round stopOn (arranged children order) position round ∧
          ∀ r ∈ more, ∃ order, IsRound stopOn shuffled children order r

private theorem continues_cons {v : Visit n} {rest : List (Visit n)}
    (hlaw : Lawful id stopOn shuffled children v)
    (hrest : Continues stopOn shuffled children (v.after.memory id) rest) (order : List Nat)
    (position : Nat)
    (h : (v.before.memory id).GoesOn shuffled children.length v.before.generator order position) :
    ∃ first more, rounds (v :: rest) = (v :: first) :: more ∧
      Round stopOn (arranged children order) position (v :: first) ∧
        ∀ round ∈ more, ∃ order, IsRound stopOn shuffled children order round := by
  obtain ⟨last, hlast, hpass, hleaves⟩ := hlaw order position h
  rw [Memory.Leaves] at hleaves
  rw [rounds]
  by_cases hstatus : v.status = .running
  · rw [if_pos hstatus] at hleaves ⊢
    rw [h.perm.length_eq, List.length_range] at hlast
    cases hrounds : rounds rest with
    | nil => exact ⟨[], [], rfl, .paused hstatus hpass, by simp⟩
    | cons round more =>
      have hgoes := hrest.2 order last hleaves hlast h.perm h.eq_range round more hrounds
      exact ⟨round, more, rfl, .resumed hstatus hpass hgoes.1, hgoes.2⟩
  · rw [if_neg hstatus] at hleaves ⊢
    exact ⟨[], rounds rest, rfl, .ended hstatus hpass, hrest.1 hleaves⟩

private theorem continues_of_threads (hstop : stopOn ≠ .running) {vs : List (Visit n)}
    (hlaw : ∀ v ∈ vs, Lawful id stopOn shuffled children v) {s s' : NodeState}
    (h : Threads id s vs s') : Continues stopOn shuffled children s.memory vs := by
  induction vs generalizing s with
  | nil => exact ⟨fun _ _ hround => by simp [rounds] at hround, fun _ _ _ _ _ _ _ _ h => nomatch h⟩
  | cons v rest ih =>
    obtain ⟨hbefore, hafter⟩ := h
    have hmemory : v.before.memory id = s.memory := congrArg (·.memory) hbefore
    have hrest := ih (fun w hw => hlaw w (List.mem_cons_of_mem v hw)) hafter
    have hcons := continues_cons (hlaw v List.mem_cons_self) hrest
    rw [hmemory] at hcons
    constructor
    · intro hfresh
      obtain ⟨first, more, hrounds, hround, hmore⟩ := hcons _ 0 (.inl ⟨hfresh, rfl, rfl⟩)
      obtain ⟨count, -, hcompleted⟩ := hround.completed hstop
      rw [hrounds, List.forall_mem_cons]
      refine ⟨⟨_, drawn_perm shuffled _ _, fun w hw => ?_, ?_, hround, count, hcompleted⟩, hmore⟩
      · rw [← Option.some.inj hw]
      · rintro rfl
        exact arranged_range children
    · intro order position hpaused hposition hperm hrange round more hrounds
      obtain ⟨first, more', hrounds', hround, hmore⟩ :=
        hcons order position (.inr ⟨hpaused, hposition, hperm, hrange⟩)
      rw [hrounds'] at hrounds
      cases hrounds
      exact ⟨hround, hmore⟩

end

namespace Executor

/-- In a run that starts without states, the ticks of an ordered composite fall into rounds. -/
theorem isRound_of_ordering {t : Tree} (hfree : (Index.build t).CycleFree) (g : Generator)
    (inputs : List Input) {p : Fin (Index.build t).size} {d : Definition}
    (hd : ((Index.build t).slot p).definition = some d) {c : Composite}
    (hkind : d.kind = .composite c) {stopOn : Status} {shuffled : Bool}
    (hordering : c.ordering? = some (stopOn, shuffled))
    (hchildren : ((Index.build t).slot p).children ≠ []) :
    ∀ round ∈ rounds ((history (.build t) (ofGenerator t g) inputs).filter (·.node = p)),
      ∃ order, IsRound stopOn shuffled ((Index.build t).slot p).children order round := by
  by_cases hp : (Index.build t).Reachable p
  · have hlaw : ∀ v ∈ (history (.build t) (ofGenerator t g) inputs).filter (·.node = p),
        Lawful ((Index.build t).name p) stopOn shuffled ((Index.build t).slot p).children v := by
      intro v hv order position hgoes
      obtain ⟨hmem, hnode⟩ := List.mem_filter.mp hv
      obtain ⟨-, m, room, f, hvisit⟩ := mem_history hmem
      rw [of_decide_eq_true hnode] at hvisit
      subst hvisit
      exact Index.visit_passes hd hkind hordering hchildren
        (fun c hc => Index.avoids_child hfree hp hc) room hgoes
    have hthreads := threads_history (e := ofGenerator t g) hfree hp rfl inputs
    have hfresh : (Store.state ∅ ((Index.build t).name p)).memory.Fresh := ⟨rfl, rfl⟩
    exact (continues_of_threads (stopOn_ne_running hordering) hlaw hthreads).1 hfresh
  · have hnone : (history (.build t) (ofGenerator t g) inputs).filter (·.node = p) = [] := by
      rw [List.filter_eq_nil_iff]
      intro v hv hnode
      exact hp (of_decide_eq_true hnode ▸ (mem_history hv).1)
    rw [hnone]
    exact fun _ h => nomatch h

/-- A shuffled sequence of one child that waits for a second, ticked every half of one: a round of two
ticks, and the first tick of the next. -/
theorem isRound_of_ordering_waiting :
    let t := (Tree.single "random_sequence" ["leaf"]).addNode ⟨"leaf", "wait", ∅⟩
    let i : Input := ⟨"actor", 0.5, World.empty.insert (.create "actor" ⟨0, 0⟩), ∅⟩
    let p : Fin (Index.build t).size := ⟨0, by decide⟩
    let vs := (history (.build t) (ofGenerator t ⟨0⟩) [i, i, i]).filter (·.node = p)
    (rounds vs).map List.length = [2, 1] ∧
      ∀ round ∈ rounds vs,
        ∃ order, IsRound .failure true ((Index.build t).slot p).children order round := by
  intro t i p vs
  have hvalid : t.fault? = none := by decide
  have hfree := Index.cycleFree_of_acyclic (Tree.fault?_eq_none_iff.mp hvalid).acyclic
  have hchildren : ((Index.build t).slot p).children ≠ [] := by decide +kernel
  exact ⟨by decide +kernel, isRound_of_ordering hfree ⟨0⟩ [i, i, i] rfl rfl rfl hchildren⟩

end Executor

end BehaviorTree
