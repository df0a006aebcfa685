import BehaviorTree.Proofs.Executor.Sound
import BehaviorTree.Proofs.Tick.Pass
import BehaviorTree.Proofs.Tree.Truth

/-!
# Ticks of formulas

Whatever the order in which a composite ticks its children, and wherever it stops, it ends with the
truth value of its connective. Nothing is left running, so that the next tick starts anew.
-/

namespace BehaviorTree

/-- A store that holds no run in the middle, though it may hold orders that were drawn. -/
structure Store.Calm (s : Store) : Prop where
  sound : s.Sound
  idle : ∀ id, (s.state id).memory.currentIndex = 0

namespace Store

theorem Calm.update {s : Store} (h : s.Calm) (id : String) {change : NodeState → NodeState}
    (hsound : ∀ state, state.memory.Sound → (change state).memory.Sound)
    (hidle : ∀ state, state.memory.currentIndex = 0 → (change state).memory.currentIndex = 0) :
    (s.update id change).Calm where
  sound := h.sound.update id hsound
  idle := by
    intro id'
    rw [state_update]
    split
    · exact hidle _ (h.idle id)
    · exact h.idle id'

end Store

/-- Whether a frame has given surroundings and no run in the middle. -/
structure Frame.Calm (o : Surroundings) (f : Frame) : Prop where
  surroundings : f.surroundings = o
  store : f.store.Calm

/-- Whether a tick ends with a truth value, with no run in the middle, and changes nothing that
surrounds the tree. -/
structure Decides (o : Surroundings) (b : Bool) (done : Status × Frame) : Prop where
  status : done.1 = .ofBool b
  calm : done.2.Calm o

/-- Whether nodes are ticked with given truth values. -/
def TicksDecide {n : Nat} (o : Surroundings) (tick : Ticker n) (v : Fin n → Bool)
    (nodes : List (Fin n)) : Prop :=
  ∀ c ∈ nodes, ∀ f : Frame, f.Calm o → Decides o (v c) (tick c f)

variable {o : Surroundings} {f : Frame}

namespace Frame.Calm

theorem updateState (h : f.Calm o) (id : String) {change : NodeState → NodeState}
    (hchange : ∀ state, (change state).memory = state.memory) : (f.updateState id change).Calm o where
  surroundings := h.surroundings
  store := by
    apply h.store.update id
    · intro state hstate
      rwa [hchange]
    · intro state hstate
      rwa [hchange]

theorem updateMemory (h : f.Calm o) (id : String) {change : Memory → Memory}
    (hsound : ∀ m, m.Sound → (change m).Sound) (hidle : ∀ m, (change m).currentIndex = 0) :
    (f.updateMemory id change).Calm o where
  surroundings := h.surroundings
  store := by
    have hstore : (f.store.update id fun s => { s with memory := change s.memory }).Calm :=
      h.store.update id (fun s => hsound s.memory) fun s _ => hidle s.memory
    exact hstore

theorem endRun (h : f.Calm o) (id : String) : (f.updateMemory id .endRun).Calm o := by
  apply h.updateMemory id
  · intro m hm
    exact hm.endRun
  · intro m
    rfl

theorem note (h : f.Calm o) (e : Entry) : (f.note e).Calm o := ⟨h.surroundings, h.store⟩

theorem drawnOrder (h : f.Calm o) (id : String) (count : Nat) :
    (Composite.drawnOrder id count f).2.Calm o := by
  rw [Composite.drawnOrder]
  split
  · exact h
  · have hgenerator : ({ f with generator := (f.generator.shuffle count).2 } : Frame).Calm o :=
      ⟨h.surroundings, h.store⟩
    have hnote := hgenerator.note (.shuffled id count)
    exact hnote.updateMemory id (fun m hm => hm.shuffle count f.generator) fun m => rfl

end Frame.Calm

namespace Status

@[simp] theorem invert_ofBool (b : Bool) : (ofBool b).invert = ofBool !b := by
  cases b <;> rfl

theorem ofBool_ne_running (b : Bool) : ofBool b ≠ running := by
  cases b <;> decide

end Status

namespace Composite

variable {n : Nat} {tick : Ticker n} {children : List (Fin n)} {v : Fin n → Bool}

private theorem runFrom_cons {id : String} {stop b : Bool} {place : Nat} {child : Fin n}
    (hchild : children[place]? = some child) {g : Frame} (htick : tick child f = (.ofBool b, g))
    (rest : List Nat) (position : Nat) :
    runFrom id (.ofBool stop) children tick (place :: rest) position f =
      if b = stop then (.ofBool stop, g.updateMemory id .endRun)
      else runFrom id (.ofBool stop) children tick rest (position + 1) g := by
  rw [runFrom, hchild]
  dsimp only
  rw [htick]
  cases b <;> cases stop <;> rfl

/-- A run ends with the value that it stops on if some child has that value. -/
private theorem decides_runFrom (htick : TicksDecide o tick v children) (id : String) (stop : Bool)
    {order : List Nat} (hvalid : ∀ place ∈ order, place < children.length) (position : Nat)
    (hf : f.Calm o) :
    Decides o (if stop ∈ (arranged children order).map v then stop else !stop)
      (runFrom id (.ofBool stop) children tick order position f) := by
  induction order generalizing position f with
  | nil => exact ⟨Status.invert_ofBool stop, hf.endRun id⟩
  | cons place rest ih =>
    obtain ⟨child, hchild⟩ : ∃ child, children[place]? = some child :=
      ⟨_, List.getElem?_eq_getElem (hvalid place List.mem_cons_self)⟩
    have hdone := htick child (List.mem_of_getElem? hchild) f hf
    have hrun : runFrom id (.ofBool stop) children tick (place :: rest) position f = _ :=
      runFrom_cons hchild (Prod.ext hdone.status rfl) rest position
    rw [hrun, arranged_cons hchild, List.map_cons]
    by_cases hstop : v child = stop
    · rw [if_pos hstop, if_pos (by simp [hstop])]
      exact ⟨rfl, hdone.calm.endRun id⟩
    · have hmem : stop ∈ v child :: (arranged children rest).map v ↔
          stop ∈ (arranged children rest).map v := by
        simp [Ne.symm hstop]
      simp only [if_neg hstop, hmem]
      exact ih (fun q hq => hvalid q (List.mem_cons_of_mem place hq)) (position + 1) hdone.calm

private theorem all_eq_ite (l : List Bool) : l.all id = if false ∈ l then false else !false := by
  by_cases h : false ∈ l
  · simp [h]
  · simp [h]

private theorem any_eq_ite (l : List Bool) : l.any id = if true ∈ l then true else !true := by
  by_cases h : true ∈ l
  · simp [h]
  · simp [h]

private theorem decides_ordered (htick : TicksDecide o tick v children) (id : String)
    (stop shuffled : Bool) (hf : f.Calm o) :
    Decides o (if stop ∈ children.map v then stop else !stop)
      (ordered id (.ofBool stop) shuffled children tick f) := by
  have hrun : ∀ order : List Nat, order.Perm (List.range children.length) → ∀ g : Frame,
      g.Calm o → Decides o (if stop ∈ children.map v then stop else !stop)
        (runFrom id (.ofBool stop) children tick (order.drop 0) 0 g) := by
    intro order horder g hg
    have hvalid : ∀ place ∈ order, place < children.length :=
      fun place hplace => List.mem_range.mp (horder.mem_iff.mp hplace)
    have hdone := decides_runFrom htick id stop hvalid 0 hg
    simpa only [((arranged_perm horder).map v).mem_iff, List.drop_zero] using hdone
  have hstart : ∀ g : Frame, g.Calm o → (if (g.memory id).currentIndex < children.length then
      (g.memory id).currentIndex else 0) = 0 := by
    intro g hg
    have hidle : (g.memory id).currentIndex = 0 := hg.store.idle id
    rw [hidle, ite_self]
  cases shuffled with
  | false =>
    simp only [ordered, Bool.false_eq_true, if_false, hstart f hf]
    exact hrun _ (.refl _) f hf
  | true =>
    have hdrawn := hf.drawnOrder id children.length
    simp only [ordered, if_true, hstart _ hdrawn]
    exact hrun _ (hf.store.sound.perm_drawnOrder id children.length) _ hdrawn

private theorem decides_tickAll (htick : TicksDecide o tick v children) (hf : f.Calm o) :
    (tickAll tick children f).1 = (children.map v).map .ofBool ∧
      (tickAll tick children f).2.Calm o := by
  induction children generalizing f with
  | nil => exact ⟨rfl, hf⟩
  | cons child rest ih =>
    have hdone := htick child List.mem_cons_self f hf
    obtain ⟨hstatuses, hcalm⟩ := ih (fun c hc => htick c (List.mem_cons_of_mem child hc)) hdone.calm
    refine ⟨?_, hcalm⟩
    rw [tickAll, List.map_cons, List.map_cons, ← hstatuses, ← hdone.status]

private theorem count_ofBool (b : Bool) (values : List Bool) :
    (values.map Status.ofBool).count (.ofBool b) = values.count b := by
  induction values with
  | nil => rfl
  | cons value rest ih =>
    rw [List.map_cons, List.count_cons, List.count_cons, ih]
    cases value <;> cases b <;> rfl

private theorem verdict_ofBool (oneSucceeds allFail : Bool) {values : List Bool}
    (h : values ≠ []) : verdict oneSucceeds allFail (values.map .ofBool) =
      .ofBool (if allFail then values.isEmpty || values.any id else values.all id) := by
  have hrunning : Status.running ∉ values.map .ofBool := by
    rw [List.mem_map]
    rintro ⟨b, -, hb⟩
    exact Status.ofBool_ne_running b hb
  have hcount : (values.map .ofBool).count Status.failure = values.count false :=
    count_ofBool false values
  simp only [verdict, hcount, List.length_map, if_neg hrunning, ite_self]
  cases allFail with
  | true =>
    have hall : values.count false = values.length ↔ values.any id = false := by
      rw [List.count_eq_length, List.any_eq_false]
      apply forall₂_congr
      intro b _
      cases b <;> simp
    simp only [if_true, hall, List.isEmpty_eq_false_iff.mpr h, Bool.false_or]
    cases values.any id <;> rfl
  | false =>
    have hsome : 0 < values.count false ↔ values.all id = false := by
      rw [List.count_pos_iff]
      simp
    simp only [Bool.false_eq_true, if_false, hsome]
    cases values.all id <;> rfl

private theorem decides_abreast (s : Settings) (htick : TicksDecide o tick v children)
    (hf : f.Calm o) :
    Decides o (parallel.truth s (children.map v)) (abreast s children tick f) := by
  rw [abreast, truth]
  cases hempty : children.isEmpty with
  | true =>
    rw [List.isEmpty_iff.mp hempty]
    simp only [if_true]
    exact ⟨by simp [Status.ofBool], hf⟩
  | false =>
    obtain ⟨hstatuses, hcalm⟩ := decides_tickAll htick hf
    have hvalues : children.map v ≠ [] := by simpa using hempty
    refine ⟨?_, hcalm⟩
    simp only [Bool.false_eq_true, if_false, hstatuses, verdict_ofBool _ _ hvalues,
      decide_eq_true_eq]

/-- A composite ends with the value of its connective on those of its children. -/
theorem decides_run (c : Composite) (s : Settings) (htick : TicksDecide o tick v children)
    (hf : f.Calm o) :
    Decides o (c.truth s (children.map v)) (c.run s children tick f) := by
  cases c with
  | parallel => exact decides_abreast s htick hf
  | sequence =>
    rw [truth, all_eq_ite]
    exact decides_ordered htick s.node.id false false hf
  | randomSequence =>
    rw [truth, all_eq_ite]
    exact decides_ordered htick s.node.id false true hf
  | selector =>
    rw [truth, any_eq_ite]
    exact decides_ordered htick s.node.id true false hf
  | randomSelector =>
    rw [truth, any_eq_ite]
    exact decides_ordered htick s.node.id true true hf

end Composite

section

variable {n : Nat} {m : Moment} {s : Settings} {tick : Ticker n} {children : List (Fin n)}
  {v : Fin n → Bool}

theorem Decorator.decides_run {d : Decorator} (hd : (Kind.decorator d).isLogical)
    (htick : TicksDecide o tick v children) (hf : f.Calm o) :
    Decides o (d.truth (children.map v)) (d.run m s children tick f) := by
  cases children with
  | nil =>
    cases d with
    | inverter | succeeder | failer => exact ⟨rfl, hf⟩
    | _ => exact absurd hd (by decide)
  | cons child rest =>
    obtain ⟨hstatus, hcalm⟩ := htick child List.mem_cons_self f hf
    have hdone : tick child f = (.ofBool (v child), (tick child f).2) := Prod.ext hstatus rfl
    cases d with
    | inverter =>
      refine ⟨?_, hcalm⟩
      exact (congrArg Status.invert hstatus).trans (Status.invert_ofBool (v child))
    | succeeder | failer =>
      simp only [run, List.head?_cons, force]
      rw [hdone]
      cases v child <;> exact ⟨rfl, hcalm⟩
    | _ => exact absurd hd (by decide)

theorem decides_dispatch (hs : s.definition.kind.isLogical)
    (htick : TicksDecide o tick v children) (hf : f.Calm o) :
    Decides o (s.truth ⟨m.agent, o.world, o.blackboard⟩ (children.map v))
      (dispatch m s children tick f) := by
  rw [dispatch, Settings.truth]
  cases hkind : s.definition.kind with
  | composite c => exact c.decides_run s htick hf
  | decorator d => exact Decorator.decides_run (hkind ▸ hs) htick hf
  | action a =>
    rw [hkind] at hs
    exact absurd hs (by simp [Kind.isLogical])
  | condition c =>
    obtain rfl := hf.surroundings
    cases c with
    | random =>
      rw [hkind] at hs
      exact absurd hs (by decide)
    | _ => exact ⟨rfl, hf⟩

end

namespace Index

variable {ix : Index} {m : Moment} {v : Fin ix.size → Bool}

theorem decides_tick_succ {room : Nat} {p : Fin ix.size}
    (hdefinition : (ix.slot p).definition = (ix.slot p).node.definition?)
    (hlogical : (ix.slot p).node.isLogical)
    (htick : TicksDecide o (tick ix m room) v (ix.slot p).children) (hf : f.Calm o) :
    Decides o ((ix.slot p).node.truth ⟨m.agent, o.world, o.blackboard⟩
      ((ix.slot p).children.map v)) (tick ix m (room + 1) p f) := by
  have henter : (ix.enter m room p f).Calm o := by
    apply (hf.note _).updateState
    intro state
    rfl
  have hrun : Decides o ((ix.slot p).node.truth ⟨m.agent, o.world, o.blackboard⟩
      ((ix.slot p).children.map v))
      ((ix.script m p (ix.enter m room p f)).run (tick ix m room)) := by
    rw [script, hdefinition, Node.truth]
    rw [Node.isLogical] at hlogical
    cases hd : (ix.slot p).node.definition? with
    | none => exact ⟨rfl, henter⟩
    | some d =>
      rw [hd] at hlogical
      dsimp only
      rw [run_script]
      exact decides_dispatch hlogical htick henter
  have hleave : ∀ status g, g.Calm o → (ix.leave p status g).Calm o := by
    intro status g hg
    apply Frame.Calm.note
    apply hg.updateState
    intro state
    rfl
  rw [tick_succ]
  exact ⟨hrun.status, hleave _ _ hrun.calm⟩

end Index

end BehaviorTree
