import BehaviorTree.Proofs.Random.Shuffle
import BehaviorTree.Proofs.Tick.Locality
import BehaviorTree.Proofs.Tick.Visit

/-!
# Passes

One tick of an ordered composite: where it goes on, which children it ticks, when it ends, and what
it remembers.
-/

namespace BehaviorTree

/-- The status that an ordered composite stops on, and whether it shuffles its children. -/
def Composite.ordering? : Composite → Option (Status × Bool)
  | sequence => some (.failure, false)
  | selector => some (.success, false)
  | randomSelector => some (.success, true)
  | randomSequence => some (.failure, true)
  | parallel => none

def arranged {α : Type} (children : List α) (order : List Nat) : List α :=
  order.filterMap (children[·]?)

/-- The order of a run that starts. -/
def drawn (shuffled : Bool) (count : Nat) (g : Generator) : List Nat :=
  if shuffled then (g.shuffle count).1 else List.range count

/-- Ticks of children along a row, from a position up to a last one: on while they end otherwise
than with `stopOn`, and then with the result for that last one. -/
inductive Pass {n : Nat} (stopOn : Status) (row : List (Fin n)) :
    (position : Nat) → List (Fin n × Status) → Status → (last : Nat) → Prop where
  | running {position : Nat} {child : Fin n} (h : row[position]? = some child) :
      Pass stopOn row position [(child, .running)] .running position
  | stopped {position : Nat} {child : Fin n} (h : row[position]? = some child) :
      Pass stopOn row position [(child, stopOn)] stopOn position
  | exhausted {position : Nat} {child : Fin n} (h : row[position]? = some child)
      (hlast : position + 1 = row.length) :
      Pass stopOn row position [(child, stopOn.invert)] stopOn.invert position
  | next {position last : Nat} {child : Fin n} {results : List (Fin n × Status)} {status : Status}
      (h : row[position]? = some child) (rest : Pass stopOn row (position + 1) results status last) :
      Pass stopOn row position ((child, stopOn.invert) :: results) status last

namespace Memory

/-- Whether the next run is to start anew. -/
def Fresh (m : Memory) : Prop := m.currentIndex = 0 ∧ m.shuffledIndices = none

/-- Whether a run is to go on at a position of an order. -/
def Paused (shuffled : Bool) (order : List Nat) (position : Nat) (m : Memory) : Prop :=
  m.currentIndex = position ∧ (shuffled = true → m.shuffledIndices = some order)

/-- Whether the next tick goes on at a position of an order, as a run that starts and draws it or
one that was paused there. -/
def GoesOn (shuffled : Bool) (count : Nat) (g : Generator) (order : List Nat) (position : Nat)
    (m : Memory) : Prop :=
  (m.Fresh ∧ position = 0 ∧ order = drawn shuffled count g) ∨
    (m.Paused shuffled order position ∧ position < count ∧ order.Perm (List.range count) ∧
      (shuffled = false → order = List.range count))

/-- What a tick leaves in memory that ended with a status at a last position. -/
def Leaves (shuffled : Bool) (order : List Nat) (status : Status) (last : Nat) (m : Memory) :
    Prop :=
  if status = .running then m.Paused shuffled order last else m.Fresh

theorem fresh_endRun (m : Memory) : m.endRun.Fresh := ⟨rfl, rfl⟩

end Memory

theorem drawn_perm (shuffled : Bool) (count : Nat) (g : Generator) :
    (drawn shuffled count g).Perm (List.range count) := by
  rw [drawn]
  split
  · exact Generator.shuffle_perm count g
  · exact .refl _

theorem arranged_cons {α : Type} {children : List α} {place : Nat} {child : α}
    (h : children[place]? = some child) (rest : List Nat) :
    arranged children (place :: rest) = child :: arranged children rest :=
  List.filterMap_cons_some h

theorem getElem?_arranged {α : Type} {children : List α} {order : List Nat}
    (h : ∀ place ∈ order, place < children.length) (i : Nat) :
    (arranged children order)[i]? = order[i]?.bind (children[·]?) := by
  induction order generalizing i with
  | nil => rfl
  | cons place rest ih =>
    have hplace := List.getElem?_eq_getElem (h place List.mem_cons_self)
    rw [arranged_cons hplace]
    cases i with
    | zero => exact hplace.symm
    | succ i => exact ih (fun q hq => h q (List.mem_cons_of_mem place hq)) i

theorem length_arranged {α : Type} {children : List α} {order : List Nat}
    (h : ∀ place ∈ order, place < children.length) :
    (arranged children order).length = order.length := by
  induction order with
  | nil => rfl
  | cons place rest ih =>
    have hplace := List.getElem?_eq_getElem (h place List.mem_cons_self)
    rw [arranged_cons hplace, List.length_cons, List.length_cons]
    exact congrArg (· + 1) (ih fun q hq => h q (List.mem_cons_of_mem place hq))

theorem mem_of_mem_arranged {α : Type} {children : List α} {order : List Nat} {child : α}
    (h : child ∈ arranged children order) : child ∈ children := by
  obtain ⟨_, _, hchild⟩ := List.mem_filterMap.mp h
  exact List.mem_of_getElem? hchild

theorem arranged_range {α : Type} (children : List α) :
    arranged children (List.range children.length) = children := by
  apply List.ext_getElem?
  intro i
  rw [getElem?_arranged fun _ => List.mem_range.mp]
  by_cases hi : i < children.length
  · rw [List.getElem?_range hi, Option.bind_some]
  · rw [List.getElem?_eq_none (by rw [List.length_range]; omega), Option.bind_none,
      List.getElem?_eq_none (by omega)]

theorem arranged_perm {α : Type} {children : List α} {order : List Nat}
    (h : order.Perm (List.range children.length)) : (arranged children order).Perm children := by
  have hperm := h.filterMap (children[·]?)
  change (arranged children order).Perm (arranged children _) at hperm
  rwa [arranged_range] at hperm

section

variable {n : Nat} {tick : Ticker n} {id : String} {stopOn : Status} {children : List (Fin n)}
  {shuffled : Bool} {order : List Nat}

private theorem scriptFrom_drop {position : Nat} {child : Fin n}
    (hvalid : ∀ place ∈ order, place < children.length)
    (hchild : (arranged children order)[position]? = some child) (f : Frame) :
    Composite.scriptFrom id stopOn children (order.drop position) position f =
      .call child f (Composite.proceed id stopOn position
        (Composite.scriptFrom id stopOn children (order.drop (position + 1)) (position + 1))) := by
  rw [getElem?_arranged hvalid] at hchild
  obtain ⟨place, hplace, hchild⟩ := Option.bind_eq_some_iff.mp hchild
  obtain ⟨hlt, rfl⟩ := List.getElem?_eq_some_iff.mp hplace
  rw [List.drop_eq_getElem_cons hlt]
  simp only [Composite.scriptFrom, hchild]

theorem invert_ne_running (hstop : stopOn ≠ .running) : stopOn.invert ≠ .running := by
  cases stopOn <;> trivial

theorem eq_invert_of_ne {status : Status} (hrunning : status ≠ .running) (hstop : stopOn ≠ .running)
    (hne : status ≠ stopOn) : status = stopOn.invert := by
  cases status <;> cases stopOn <;> trivial

/-- Whether a script makes a pass from a position on that begins with some results, and leaves the
memory of its node as the pass ends. -/
private def Passes (tick : Ticker n) (id : String) (stopOn : Status) (children : List (Fin n))
    (shuffled : Bool) (order : List Nat) (position : Nat) (first : List (Fin n × Status))
    (s : Script n) : Prop :=
  ∃ last < order.length,
    Pass stopOn (arranged children order) position
      (first ++ (s.calls tick).map fun c => (c.child, c.status)) (s.run tick).1 last ∧
    ((s.run tick).2.memory id).Leaves shuffled order (s.run tick).1 last

private theorem passes_of_child (hstop : stopOn ≠ .running)
    (hkeep : ∀ child ∈ children, ∀ f, (tick child f).2.memory id = f.memory id)
    (hvalid : ∀ place ∈ order, place < children.length) {position : Nat}
    (hposition : position < order.length) {f : Frame}
    (hf : shuffled = true → (f.memory id).shuffledIndices = some order)
    (hnext : ∀ child, (arranged children order)[position]? = some child →
      ∀ g, (shuffled = true → (g.memory id).shuffledIndices = some order) →
        Passes tick id stopOn children shuffled order position [(child, stopOn.invert)]
          (Composite.scriptFrom id stopOn children (order.drop (position + 1)) (position + 1) g)) :
    Passes tick id stopOn children shuffled order position []
      (Composite.scriptFrom id stopOn children (order.drop position) position f) := by
  obtain ⟨child, hchild⟩ : ∃ child, (arranged children order)[position]? = some child :=
    ⟨_, List.getElem?_eq_getElem (by rwa [length_arranged hvalid])⟩
  have hmemory := hkeep child (mem_of_mem_arranged (List.mem_of_getElem? hchild)) f
  rw [scriptFrom_drop hvalid hchild, Passes, Script.calls, Script.run]
  generalize tick child f = result at hmemory
  obtain ⟨status, g⟩ := result
  dsimp only at hmemory ⊢
  have hg : shuffled = true → (g.memory id).shuffledIndices = some order := by
    rw [hmemory]
    exact hf
  cases status with
  | running =>
    refine ⟨position, hposition, .running hchild, ?_⟩
    rw [Composite.proceed, Script.run, Memory.Leaves, if_pos rfl, Frame.memory_updateMemory_self]
    exact ⟨rfl, hg⟩
  | success | failure =>
    rw [Composite.proceed_of_ended (by decide)]
    split
    · rename_i heq
      subst heq
      refine ⟨position, hposition, .stopped hchild, ?_⟩
      rw [Script.run, Memory.Leaves, if_neg hstop, Frame.memory_updateMemory_self]
      exact Memory.fresh_endRun _
    · rename_i hne
      rw [eq_invert_of_ne (by decide) hstop hne]
      exact hnext child hchild g hg

/-- An ordered composite that goes on at a position makes a pass from there. -/
private theorem passes_scriptFrom (hstop : stopOn ≠ .running)
    (hkeep : ∀ child ∈ children, ∀ f, (tick child f).2.memory id = f.memory id)
    (hvalid : ∀ place ∈ order, place < children.length) {k position : Nat}
    (hposition : position + k + 1 = order.length) {f : Frame}
    (hf : shuffled = true → (f.memory id).shuffledIndices = some order) :
    Passes tick id stopOn children shuffled order position []
      (Composite.scriptFrom id stopOn children (order.drop position) position f) := by
  have hlength := length_arranged hvalid
  induction k generalizing position f with
  | zero =>
    refine passes_of_child hstop hkeep hvalid (by omega) hf fun child hchild g hg => ?_
    rw [List.drop_eq_nil_of_le (by omega), Composite.scriptFrom]
    refine ⟨position, by omega, .exhausted hchild (by omega), ?_⟩
    rw [Script.run, Memory.Leaves, if_neg (invert_ne_running hstop),
      Frame.memory_updateMemory_self]
    exact Memory.fresh_endRun _
  | succ k ih =>
    refine passes_of_child hstop hkeep hvalid (by omega) hf fun child hchild g hg => ?_
    have hrest : position + 1 + k + 1 = order.length := by omega
    obtain ⟨last, hlast, hpass, hleaves⟩ := ih hrest hg
    exact ⟨last, hlast, .next hchild hpass, hleaves⟩

private theorem drawnOrder_of_none (count : Nat) {f : Frame}
    (h : (f.memory id).shuffledIndices = none) :
    (Composite.drawnOrder id count f).1 = (f.generator.shuffle count).1 ∧
      ((Composite.drawnOrder id count f).2.memory id).currentIndex = 0 ∧
        ((Composite.drawnOrder id count f).2.memory id).shuffledIndices =
          some (f.generator.shuffle count).1 := by
  rw [Composite.drawnOrder, h]
  dsimp only [Option.filter_none]
  rw [Frame.memory_updateMemory_self]
  exact ⟨rfl, rfl, rfl⟩

private theorem drawnOrder_of_some {f : Frame} (h : (f.memory id).shuffledIndices = some order) :
    Composite.drawnOrder id order.length f = (order, f) := by
  rw [Composite.drawnOrder, h, Option.filter_some_pos (by exact decide_eq_true rfl)]

private theorem orderedScript_eq (stopOn : Status) (hchildren : children ≠ []) {position : Nat} {f : Frame}
    (h : (f.memory id).GoesOn shuffled children.length f.generator order position) :
    ∃ g, Composite.orderedScript id stopOn shuffled children f =
        Composite.scriptFrom id stopOn children (order.drop position) position g ∧
      (shuffled = true → (g.memory id).shuffledIndices = some order) := by
  have hcount := List.length_pos_iff.mpr hchildren
  cases shuffled with
  | false =>
    refine ⟨f, ?_, fun hfalse => nomatch hfalse⟩
    have hall : order = List.range children.length ∧ (f.memory id).currentIndex = position ∧
        position < children.length := by
      rcases h with ⟨hfresh, rfl, rfl⟩ | ⟨hpaused, hlt, -, hrange⟩
      · exact ⟨rfl, hfresh.1, hcount⟩
      · exact ⟨hrange rfl, hpaused.1, hlt⟩
    obtain ⟨rfl, hindex, hlt⟩ := hall
    simp only [Composite.orderedScript, Bool.false_eq_true, if_false, hindex, if_pos hlt]
  | true =>
    rcases h with ⟨hfresh, rfl, rfl⟩ | ⟨hpaused, hlt, hperm, -⟩
    · obtain ⟨horder, hindex, hshuffled⟩ := drawnOrder_of_none children.length hfresh.2
      refine ⟨(Composite.drawnOrder id children.length f).2, ?_, fun _ => hshuffled⟩
      simp only [Composite.orderedScript, if_true, horder, hindex, if_pos hcount, drawn]
    · have hlength := hperm.length_eq
      rw [List.length_range] at hlength
      have hdrawn := drawnOrder_of_some (hpaused.2 rfl)
      rw [hlength] at hdrawn
      refine ⟨f, ?_, hpaused.2⟩
      simp only [Composite.orderedScript, if_true, hdrawn, hpaused.1, if_pos hlt]

end

theorem Memory.GoesOn.lt {shuffled : Bool} {count position : Nat} {g : Generator} {order : List Nat}
    {m : Memory} (h : m.GoesOn shuffled count g order position) (hcount : 0 < count) :
    position < count := by
  rcases h with ⟨-, rfl, -⟩ | ⟨-, hlt, -⟩
  · exact hcount
  · exact hlt

theorem Memory.GoesOn.perm {shuffled : Bool} {count position : Nat} {g : Generator}
    {order : List Nat} {m : Memory} (h : m.GoesOn shuffled count g order position) :
    order.Perm (List.range count) := by
  rcases h with ⟨-, -, rfl⟩ | ⟨-, -, hperm, -⟩
  · exact drawn_perm shuffled count g
  · exact hperm

theorem Memory.GoesOn.eq_range {shuffled : Bool} {count position : Nat} {g : Generator}
    {order : List Nat} {m : Memory} (h : m.GoesOn shuffled count g order position)
    (hshuffled : shuffled = false) : order = List.range count := by
  rcases h with ⟨-, -, rfl⟩ | ⟨-, -, -, hrange⟩
  · rw [drawn, hshuffled]
    rfl
  · exact hrange hshuffled

theorem stopOn_ne_running {c : Composite} {stopOn : Status} {shuffled : Bool}
    (h : c.ordering? = some (stopOn, shuffled)) : stopOn ≠ .running := by
  cases c with
  | parallel => cases h
  | sequence | selector | randomSelector | randomSequence =>
    cases h
    decide

namespace Index

variable {ix : Index} {m : Moment} {p : Fin ix.size} {d : Definition} {c : Composite}
  {stopOn : Status} {shuffled : Bool}

theorem script_of_ordering (hd : (ix.slot p).definition = some d)
    (hkind : d.kind = .composite c) (hordering : c.ordering? = some (stopOn, shuffled)) (f : Frame) :
    ix.script m p f =
      Composite.orderedScript (ix.name p) stopOn shuffled (ix.slot p).children f := by
  rw [script_of_composite hd hkind]
  cases c with
  | parallel => cases hordering
  | sequence | selector | randomSelector | randomSequence =>
    cases hordering
    rfl

/-- A tick of an ordered composite makes a pass from where its memory says, and leaves in its memory
where the next one goes on. Its children must not change its state. -/
theorem visit_passes (hd : (ix.slot p).definition = some d) (hkind : d.kind = .composite c)
    (hordering : c.ordering? = some (stopOn, shuffled)) (hchildren : (ix.slot p).children ≠ [])
    (havoids : ∀ child, ix.Edge p child → ix.Avoids child (ix.name p)) (room : Nat) {f : Frame}
    {order : List Nat} {position : Nat}
    (h : (f.memory (ix.name p)).GoesOn shuffled (ix.slot p).children.length f.generator order
      position) :
    ∃ last < order.length,
      Pass stopOn (arranged (ix.slot p).children order) position (ix.visit m room p f).results
        (ix.visit m room p f).status last ∧
      ((ix.visit m room p f).after.memory (ix.name p)).Leaves shuffled order
        (ix.visit m room p f).status last := by
  have hlength : order.length = (ix.slot p).children.length := by
    rw [h.perm.length_eq, List.length_range]
  have hposition := h.lt (List.length_pos_iff.mpr hchildren)
  rw [← memory_enter m room p f] at h
  obtain ⟨g, hscript, hg⟩ := orderedScript_eq stopOn hchildren h
  have hvalid : ∀ place ∈ order, place < (ix.slot p).children.length :=
    fun place hplace => List.mem_range.mp (h.perm.mem_iff.mp hplace)
  have hkeep : ∀ child ∈ (ix.slot p).children, ∀ f,
      (tick ix m room child f).2.memory (ix.name p) = f.memory (ix.name p) :=
    fun child hchild f => congrArg (·.memory) ((havoids child hchild).state_tick m room f)
  have hrest : position + (order.length - position - 1) + 1 = order.length := by omega
  have hpasses := passes_scriptFrom (stopOn_ne_running hordering) hkeep hvalid
    hrest hg
  rw [← hscript, ← script_of_ordering hd hkind hordering] at hpasses
  obtain ⟨last, hlast, hpass, hleaves⟩ := hpasses
  refine ⟨last, hlast, ?_, ?_⟩
  · rw [Visit.results, visit, tick_succ]
    exact hpass
  · rw [visit, tick_succ]
    dsimp only
    rw [memory_leave]
    exact hleaves

end Index

end BehaviorTree
