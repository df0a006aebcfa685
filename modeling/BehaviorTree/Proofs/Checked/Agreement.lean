import BehaviorTree.Proofs.Checked.Basic

/-!
# Agreement of checked nodes

On sound states every kind of node does the same with its lookups checked, if the ticks of its
children do.
-/

namespace BehaviorTree.Checked

private theorem ok_bind {ε α β : Type} (a : α) (k : α → Except ε β) :
    ((Except.ok a : Except ε α) >>= k) = k a := rfl

theorem lookUp_eq_ok {α : Type} {breach : Breach} {xs : List α} {i : Nat} {x : α}
    (h : xs[i]? = some x) : lookUp breach xs i = .ok x := by
  rw [lookUp, h]

theorem remainder_eq_ok {a b : Nat} (h : b ≠ 0) : remainder a b = .ok (a % b) := if_neg h

theorem increment_eq_ok {x : UInt32} (h : x.toNat < UInt32.size - 1) :
    increment x = .ok (x + 1) :=
  if_pos (by omega)

theorem swap_eq_ok {order : List Nat} {i j : Nat} (hi : i < order.length)
    (hj : j < order.length) : swap order i j = .ok (Generator.swap order i j) := by
  have ha : order[i]? = some order[i] := List.getElem?_eq_getElem hi
  have hb : order[j]? = some order[j] := List.getElem?_eq_getElem hj
  rw [swap, lookUp_eq_ok ha, lookUp_eq_ok hb, Generator.swap, ha, hb]
  rfl

theorem shuffleFrom_eq_ok {i : Nat} {order : List Nat} (h : i ≤ order.length - 1)
    (g : Generator) : shuffleFrom i order g = .ok (g.shuffleFrom i order) := by
  induction i generalizing order g with
  | zero => rfl
  | succ i ih =>
    have hlt : (g.nextBelow (i + 2)).1 < i + 2 := Generator.nextBelow_lt (by omega) g
    have hswap := Generator.swap_perm order (i + 1) (g.nextBelow (i + 2)).1
    rw [shuffleFrom, Generator.shuffleFrom_succ, swap_eq_ok (by omega) (by omega), ok_bind]
    exact ih (by rw [hswap.length_eq]; omega) _

theorem drawnOrder_eq_ok (id : String) (count : Nat) (f : Frame) :
    drawnOrder id count f = .ok (Composite.drawnOrder id count f) := by
  rw [drawnOrder, Composite.drawnOrder]
  cases (f.memory id).shuffledIndices.filter (·.length = count) with
  | some order => rfl
  | none =>
    have hshuffle : shuffle count f.generator = .ok (f.generator.shuffle count) :=
      shuffleFrom_eq_ok (by rw [List.length_range]) f.generator
    dsimp only
    rw [hshuffle]
    rfl

/-- Whether ticks by number are those of positions, and keep states sound. -/
def Agrees {n : Nat} (checked : Ticker) (tick : BehaviorTree.Ticker n) : Prop :=
  ∀ p f, f.store.Sound → checked p.val f = .ok (tick p f) ∧ (tick p f).2.store.Sound

section

variable {n : Nat} {checked : Ticker} {tick : BehaviorTree.Ticker n}

theorem placeAt_eq_ok {order? : Option (List Nat)} {count position : Nat}
    (h : position < (order?.getD (List.range count)).length) :
    placeAt order? position = .ok (order?.getD (List.range count))[position] := by
  cases order? with
  | some order => exact lookUp_eq_ok (List.getElem?_eq_getElem h)
  | none =>
    rw [placeAt]
    simp

theorem runFrom_eq_ok (hagree : Agrees checked tick) (id : String) (stopOn : Status)
    (children : List (Fin n)) (order? : Option (List Nat))
    (horder : (order?.getD (List.range children.length)).Perm (List.range children.length))
    {remaining position : Nat} (hposition : position + remaining = children.length) {f : Frame}
    (hf : f.store.Sound) :
    runFrom id stopOn (children.map Fin.val) order? checked remaining position f =
      .ok (Composite.runFrom id stopOn children tick
        ((order?.getD (List.range children.length)).drop position) position f) := by
  have hlength := horder.length_eq
  rw [List.length_range] at hlength
  induction remaining generalizing position f with
  | zero =>
    rw [List.drop_eq_nil_of_le (by omega)]
    rfl
  | succ remaining ih =>
    have hlt : position < (order?.getD (List.range children.length)).length := by omega
    have hplace : (order?.getD (List.range children.length))[position] < children.length :=
      List.mem_range.mp (horder.mem_iff.mp (List.getElem_mem hlt))
    obtain ⟨child, hchild⟩ : ∃ child,
        children[(order?.getD (List.range children.length))[position]]? = some child :=
      ⟨_, List.getElem?_eq_getElem hplace⟩
    have hnumber : (children.map Fin.val)[(order?.getD (List.range children.length))[position]]? =
        some child.val := by
      rw [List.getElem?_map, hchild, Option.map_some]
    obtain ⟨htick, hsound⟩ := hagree child f hf
    rw [List.drop_eq_getElem_cons hlt, runFrom, placeAt_eq_ok hlt, ok_bind, lookUp_eq_ok hnumber,
      ok_bind, htick, ok_bind, Composite.runFrom, hchild]
    dsimp only
    generalize tick child f = result at hsound
    obtain ⟨status, g⟩ := result
    cases status with
    | running => rfl
    | success | failure =>
      dsimp only
      split
      · rfl
      · exact ih (by omega) hsound

theorem ordered_eq_ok (hagree : Agrees checked tick) (s : Settings) (m : Moment) (stopOn : Status)
    (shuffled : Bool) (children : List (Fin n)) {f : Frame} (hf : f.store.Sound) :
    ordered s.node.id stopOn shuffled (children.map Fin.val) checked f =
      .ok (Composite.ordered s.node.id stopOn shuffled children tick f) := by
  have hposition : ∀ saved, (if saved < children.length then saved else 0) +
      (children.length - if saved < children.length then saved else 0) = children.length := by
    intro saved
    split <;> omega
  cases shuffled with
  | false =>
    simp only [ordered, List.length_map]
    exact runFrom_eq_ok hagree _ stopOn children none (.refl _) (hposition _) hf
  | true =>
    have heffects : Effects m s f _ := (inwards_drawnOrder children.length f).effects
    simp only [ordered, List.length_map, if_true, drawnOrder_eq_ok]
    exact runFrom_eq_ok hagree _ stopOn children (some _) (hf.perm_drawnOrder _ _) (hposition _)
      (heffects.sound hf)

theorem tickAll_eq_ok (hagree : Agrees checked tick) (children : List (Fin n)) {f : Frame}
    (hf : f.store.Sound) :
    tickAll checked (children.map Fin.val) f = .ok (Composite.tickAll tick children f) := by
  induction children generalizing f with
  | nil => rfl
  | cons child rest ih =>
    obtain ⟨htick, hsound⟩ := hagree child f hf
    rw [List.map_cons, tickAll, htick, ok_bind]
    dsimp only
    rw [ih hsound]
    rfl

theorem composite_eq_ok (hagree : Agrees checked tick) (c : Composite) (s : Settings) (m : Moment)
    (children : List (Fin n)) {f : Frame} (hf : f.store.Sound) :
    composite c s (children.map Fin.val) checked f = .ok (c.run s children tick f) := by
  cases c with
  | parallel =>
    rw [composite, abreast, Composite.run, Composite.abreast, List.isEmpty_map]
    split
    · rfl
    · rw [tickAll_eq_ok hagree children hf]
      rfl
  | sequence | selector | randomSelector | randomSequence =>
    rw [composite, Composite.run]
    exact ordered_eq_ok hagree s m _ _ children hf

theorem countRun_eq_ok {f : Frame} (hf : f.store.Sound) (id : String) (limit : UInt32)
    (outcome : Status) :
    countRun id limit outcome f = .ok (Decorator.countRun id limit outcome f) := by
  have hiteration : (f.memory id).iteration.toNat < UInt32.size - 1 :=
    (Store.sound_iff.mp hf id).iteration
  rw [countRun, Decorator.countRun, increment_eq_ok hiteration, ok_bind]
  split
  · rfl
  · rfl

theorem untilDone_eq_ok {f : Frame} (hf : f.store.Sound) (awaited : Status) (s : Settings)
    (status : Status) :
    untilDone awaited s status f = .ok (Decorator.untilDone awaited s status f) := by
  rw [untilDone, Decorator.untilDone]
  split
  · rfl
  · exact countRun_eq_ok hf _ _ _

theorem afterRun_eq_ok (hagree : Agrees checked tick) (child : Fin n) {f : Frame}
    (hf : f.store.Sound) {cdone : Status → Frame → Except Breach (Status × Frame)}
    {done : Status → Frame → Status × Frame}
    (hdone : ∀ status g, g.store.Sound → cdone status g = .ok (done status g)) :
    afterRun child.val checked f cdone = .ok (match tick child f with
      | (.running, f) => (.running, f)
      | (status, f) => done status f) := by
  obtain ⟨htick, hsound⟩ := hagree child f hf
  rw [afterRun, htick, ok_bind]
  generalize tick child f = result at hsound
  obtain ⟨status, g⟩ := result
  cases status with
  | running => rfl
  | success | failure => exact hdone _ g hsound

theorem gate_eq_ok (hagree : Agrees checked tick) (s : Settings) (child? : Option (Fin n))
    {f : Frame} (hf : f.store.Sound) :
    gate s (child?.map Fin.val) checked f = .ok (Decorator.gate s child? tick f) := by
  simp only [gate, Decorator.gate]
  split
  · rfl
  · cases child? with
    | none => rfl
    | some child => exact afterRun_eq_ok hagree child hf fun _ _ _ => rfl

theorem limitTime_eq_ok (hagree : Agrees checked tick) (m : Moment) (s : Settings)
    (child? : Option (Fin n)) {f : Frame} (hf : f.store.Sound) :
    limitTime m s (child?.map Fin.val) checked f = .ok (Decorator.limitTime m s child? tick f) := by
  simp only [limitTime, Decorator.limitTime]
  generalize (if (f.state s.node.id).status = .running then (f.state s.node.id).memory.elapsed
    else 0) + m.delta = elapsed
  split
  · rfl
  · cases child? with
    | none => rfl
    | some child =>
      refine (hagree child _ ?_).1
      exact hf.update _ fun _ hs => ⟨hs.order, hs.iteration⟩

theorem decorator_eq_ok (hagree : Agrees checked tick) (d : Decorator) (m : Moment) (s : Settings)
    (children : List (Fin n)) {f : Frame} (hf : f.store.Sound) :
    decorator d m s (children.map Fin.val) checked f = .ok (d.run m s children tick f) := by
  rw [decorator.eq_def, Decorator.run.eq_def, List.head?_map]
  cases children.head? with
  | none =>
    cases d with
    | cooldown => exact gate_eq_ok hagree s none hf
    | timeout => exact limitTime_eq_ok hagree m s none hf
    | inverter | succeeder | failer | repeater | repeatUntilFail | repeatUntilSuccess => rfl
  | some child =>
    cases d with
    | cooldown => exact gate_eq_ok hagree s (some child) hf
    | timeout => exact limitTime_eq_ok hagree m s (some child) hf
    | inverter =>
      dsimp only [Option.map_some]
      rw [(hagree child f hf).1]
      rfl
    | succeeder | failer => exact afterRun_eq_ok hagree child hf fun _ _ _ => rfl
    | repeater => exact afterRun_eq_ok hagree child hf fun _ _ hg => countRun_eq_ok hg _ _ _
    | repeatUntilFail | repeatUntilSuccess =>
      exact afterRun_eq_ok hagree child hf fun _ _ hg => untilDone_eq_ok hg _ s _

end

theorem lingering_eq_ok {count : Nat} (hcount : count ≠ 0) (delta waitTime : Float32)
    (memory : Memory) :
    lingering delta waitTime count memory = .ok (Action.lingering delta waitTime count memory) := by
  simp only [lingering, Action.lingering]
  split
  · rw [remainder_eq_ok hcount]
    rfl
  · rfl

private theorem updateMemory_memory (f : Frame) (id : String) (change : Memory → Memory) :
    (f.updateMemory id fun _ => change (f.memory id)) = f.updateMemory id change := rfl

theorem walkRoute_eq_ok (m : Moment) (s : Settings) (me : Entity) (f : Frame) :
    walkRoute m s me f = .ok (Action.walkRoute m s me f) := by
  rw [walkRoute, Action.walkRoute]
  dsimp only
  cases hroute : Waypoint.route? (s.text "waypoints") with
  | none => rfl
  | some route =>
    have hne : route.length ≠ 0 := by
      have hfull := (Option.filter_eq_some_iff.mp hroute).2
      simpa using hfull
    have hlt : (f.memory s.node.id).waypointIndex % route.length < route.length :=
      Nat.mod_lt _ (Nat.pos_of_ne_zero hne)
    have htarget := List.getElem?_eq_getElem hlt
    dsimp only
    rw [remainder_eq_ok hne, ok_bind]
    split
    · rw [lingering_eq_ok hne, ok_bind, updateMemory_memory]
      rfl
    · rw [lookUp_eq_ok htarget, htarget, ok_bind]
      dsimp only
      split
      · rfl
      · rfl

theorem action_eq_ok (a : Action) (m : Moment) (s : Settings) (me : Entity) (f : Frame) :
    action a m s me f = .ok (a.run m s me f) := by
  cases a with
  | patrol => exact walkRoute_eq_ok m s me f
  | move | attack | flee | idle | wait | log | setBlackboard => rfl

end BehaviorTree.Checked
