import BehaviorTree.Proofs.Tick.Once

/-!
# Live states

The state of a running node tells of a child that is running: an ordered composite goes on at such a
child, and a decorator that passes results on has such a first child. An ordered composite that is not
running remembers nothing. Where no node is shared, a tick keeps this of all nodes that the ticked one
leads to, also of those that are not ticked.
-/

namespace BehaviorTree

open Relation

/-- Whether a decorator is running only while its child is. -/
def Decorator.forwards : Decorator → Bool
  | inverter | succeeder | failer | cooldown | timeout => true
  | repeater | repeatUntilFail | repeatUntilSuccess => false

namespace Index

def IsRunning (ix : Index) (s : Store) (p : Fin ix.size) : Prop :=
  ∃ state, s.get? (ix.name p) = some state ∧ state.status = .running

/-- Whether a memory tells of a running child to go on with: by its position, or for shuffled
children by its position in an order of all of them. -/
def Resumes (ix : Index) (s : Store) (p : Fin ix.size) (m : Memory) : (shuffled : Bool) → Prop
  | false => m.shuffledIndices = none ∧ m.currentIndex < (ix.slot p).children.length ∧
      ∃ child, (ix.slot p).children[m.currentIndex]? = some child ∧ ix.IsRunning s child
  | true => ∃ order, m.shuffledIndices = some order ∧
      order.Perm (List.range (ix.slot p).children.length) ∧
      m.currentIndex < (ix.slot p).children.length ∧
      ∃ child, order[m.currentIndex]?.bind ((ix.slot p).children[·]?) = some child ∧
        ix.IsRunning s child

/-- Whether a state of a node is that of a run that goes on, or else of none. -/
def Live (ix : Index) (s : Store) (p : Fin ix.size) (state : NodeState) : Prop :=
  ∀ d, (ix.slot p).definition = some d → match d.kind with
    | .composite c => ∀ stopOn shuffled, c.ordering? = some (stopOn, shuffled) →
        if state.status = .running then ix.Resumes s p state.memory shuffled
        else state.memory.Fresh
    | .decorator c => c.forwards = true → state.status = .running →
        ∃ child, (ix.slot p).children.head? = some child ∧ ix.IsRunning s child
    | .action _ | .condition _ => True

/-- Whether the entry of a node, if it has one, is live. -/
def LiveAt (ix : Index) (s : Store) (p : Fin ix.size) : Prop :=
  ∀ state, s.get? (ix.name p) = some state → ix.Live s p state

section

variable {ix : Index} {s s' : Store} {p : Fin ix.size}

theorem IsRunning.congr (h : ix.IsRunning s p) (hp : s'.get? (ix.name p) = s.get? (ix.name p)) :
    ix.IsRunning s' p := by
  obtain ⟨state, hstate, hrunning⟩ := h
  exact ⟨state, hp.trans hstate, hrunning⟩

theorem Resumes.congr {m : Memory} {shuffled : Bool} (h : ix.Resumes s p m shuffled)
    (hchildren : ∀ c, ix.Edge p c → s'.get? (ix.name c) = s.get? (ix.name c)) :
    ix.Resumes s' p m shuffled := by
  cases shuffled with
  | false =>
    obtain ⟨hnone, hlt, child, hchild, hrunning⟩ := h
    exact ⟨hnone, hlt, child, hchild, hrunning.congr (hchildren child (List.mem_of_getElem? hchild))⟩
  | true =>
    obtain ⟨order, horder, hperm, hlt, child, hchild, hrunning⟩ := h
    obtain ⟨place, -, hplace⟩ := Option.bind_eq_some_iff.mp hchild
    exact ⟨order, horder, hperm, hlt, child, hchild,
      hrunning.congr (hchildren child (List.mem_of_getElem? hplace))⟩

/-- Whether a node is live depends on its entry and on those of its children. -/
theorem LiveAt.congr (h : ix.LiveAt s p) (hp : s'.get? (ix.name p) = s.get? (ix.name p))
    (hchildren : ∀ c, ix.Edge p c → s'.get? (ix.name c) = s.get? (ix.name c)) :
    ix.LiveAt s' p := by
  intro state hstate d hd
  have hlive := h state (hp ▸ hstate) d hd
  cases hkind : d.kind with
  | composite c =>
    rw [hkind] at hlive
    intro stopOn shuffled hordering
    have hleft := hlive stopOn shuffled hordering
    split at hleft
    · rw [if_pos ‹_›]
      exact hleft.congr hchildren
    · rw [if_neg ‹_›]
      exact hleft
  | decorator c =>
    rw [hkind] at hlive
    intro hforwards hrunning
    obtain ⟨child, hchild, hchildRunning⟩ := hlive hforwards hrunning
    exact ⟨child, hchild, hchildRunning.congr (hchildren child (List.mem_of_head? hchild))⟩
  | action a => trivial
  | condition c => trivial

end

end Index

section

variable {n : Nat} {tick : Ticker n}

private theorem running_of_call {child : Fin n} {f : Frame} {next : Status → Frame → Script n}
    (hnext : ∀ status g, ((next status g).run tick).1 = .running → status = .running)
    (hrun : ((Script.call child f next).run tick).1 = .running) :
    ∃ c ∈ (Script.call child f next).calls tick, c.child = child ∧ c.status = .running :=
  ⟨_, List.mem_cons_self, rfl, hnext _ _ hrun⟩

private theorem running_of_gate (s : Settings) {child? : Option (Fin n)} {f : Frame}
    (h : ((Decorator.gateScript s child? f).run tick).1 = .running) :
    ∃ c ∈ (Decorator.gateScript s child? f).calls tick,
      child? = some c.child ∧ c.status = .running := by
  simp only [Decorator.gateScript] at h ⊢
  split at h
  · cases h
  · rw [if_neg ‹_›]
    cases child? with
    | none => cases h
    | some child =>
      obtain ⟨c, hc, hchild, hrunning⟩ := running_of_call (fun status g hrun => by
        cases status <;> first | rfl | cases hrun) h
      exact ⟨c, hc, congrArg some hchild.symm, hrunning⟩

private theorem running_of_limitTime (m : Moment) (s : Settings) {child? : Option (Fin n)}
    {f : Frame} (h : ((Decorator.limitTimeScript m s child? f).run tick).1 = .running) :
    ∃ c ∈ (Decorator.limitTimeScript m s child? f).calls tick,
      child? = some c.child ∧ c.status = .running := by
  simp only [Decorator.limitTimeScript] at h ⊢
  generalize (if (f.state s.node.id).status = .running then (f.state s.node.id).memory.elapsed
    else 0) + m.delta = elapsed at h ⊢
  split at h
  · cases h
  · rw [if_neg ‹_›]
    cases child? with
    | none => cases h
    | some child =>
      obtain ⟨c, hc, hchild, hrunning⟩ := running_of_call (fun _ _ hrun => by exact hrun) h
      exact ⟨c, hc, congrArg some hchild.symm, hrunning⟩

theorem running_of_forwards {d : Decorator} (hd : d.forwards = true) (m : Moment) (s : Settings)
    {children : List (Fin n)} {f : Frame} (h : ((d.script m s children f).run tick).1 = .running) :
    ∃ c ∈ (d.script m s children f).calls tick,
      children.head? = some c.child ∧ c.status = .running := by
  rw [Decorator.script.eq_def] at h ⊢
  cases hhead : children.head? with
  | none =>
    rw [hhead] at h
    cases d with
    | cooldown => exact running_of_gate s h
    | timeout => exact running_of_limitTime m s h
    | inverter | succeeder | failer => cases h
    | repeater | repeatUntilFail | repeatUntilSuccess => cases hd
  | some child =>
    rw [hhead] at h
    cases d with
    | cooldown => exact running_of_gate s h
    | timeout => exact running_of_limitTime m s h
    | inverter | succeeder | failer =>
      obtain ⟨c, hc, hchild, hrunning⟩ := running_of_call (fun status g hrun => by
        cases status <;> first | rfl | cases hrun) h
      exact ⟨c, hc, congrArg some hchild.symm, hrunning⟩
    | repeater | repeatUntilFail | repeatUntilSuccess => cases hd

end

theorem Pass.exists_running {n : Nat} {stopOn : Status} (hstop : stopOn ≠ .running)
    {row : List (Fin n)} {position last : Nat} {results : List (Fin n × Status)} {status : Status}
    (h : Pass stopOn row position results status last) (hrunning : status = .running) :
    ∃ child, row[last]? = some child ∧ (child, .running) ∈ results := by
  induction h with
  | @running position child h => exact ⟨child, h, List.mem_singleton_self _⟩
  | stopped _ => exact absurd hrunning hstop
  | exhausted _ _ =>
    cases stopOn with
    | running => exact absurd rfl hstop
    | success | failure => cases hrunning
  | next _ _ ih =>
    obtain ⟨child, hchild, hmem⟩ := ih hrunning
    exact ⟨child, hchild, List.mem_cons_of_mem _ hmem⟩

section

variable {n : Nat} {tick : Ticker n} {id : String} {stopOn : Status}

private theorem orderedScript_nil (id : String) (stopOn : Status) (shuffled : Bool) {f : Frame}
    (hf : f.store.Sound) : ∃ g : Frame, Composite.orderedScript id stopOn shuffled ([] : List (Fin n)) f =
      .finish stopOn.invert (g.updateMemory id .endRun) := by
  cases shuffled with
  | false => exact ⟨f, rfl⟩
  | true =>
    have horder : (Composite.drawnOrder id 0 f).1 = [] := (hf.perm_drawnOrder id 0).eq_nil
    refine ⟨(Composite.drawnOrder id 0 f).2, ?_⟩
    simp only [Composite.orderedScript, if_true, List.length_nil, horder, List.drop_nil]
    rfl

private theorem plain_stretches (id : String) (stopOn : Status) (children : List (Fin n))
    (order : List Nat) (position : Nat) (f : Frame) :
    (Composite.scriptFrom id stopOn children order position f).Stretches
      (fun f g => (f.memory id).shuffledIndices = none → (g.memory id).shuffledIndices = none)
      f := by
  induction order generalizing position f with
  | nil =>
    intro _
    rw [Frame.memory_updateMemory_self]
    rfl
  | cons place rest ih =>
    rw [Composite.scriptFrom]
    cases children[place]? with
    | none => exact fun h => h
    | some child =>
      refine ⟨fun h => h, fun status g => ?_⟩
      cases status with
      | running =>
        intro h
        rw [Frame.memory_updateMemory_self]
        exact h
      | success | failure =>
        rw [Composite.proceed_of_ended (by decide)]
        split
        · intro _
          rw [Frame.memory_updateMemory_self]
          rfl
        · exact ih (position + 1) g

end

namespace Index

variable {t : Tree} {m : Moment} {p : Fin (build t).size} {d : Definition} {c : Composite}
  {stopOn : Status} {shuffled : Bool}

private theorem goesOn_of_liveAt {ix : Index} {p : Fin ix.size} {f : Frame}
    (h : ix.LiveAt f.store p) (hd : (ix.slot p).definition = some d) (hkind : d.kind = .composite c)
    (hordering : c.ordering? = some (stopOn, shuffled)) :
    (∃ order position, (f.memory (ix.name p)).GoesOn shuffled (ix.slot p).children.length f.generator
      order position) ∧ (shuffled = false → (f.memory (ix.name p)).shuffledIndices = none) := by
  rw [Frame.memory, Frame.state, Store.state]
  cases hstate : f.store.get? (ix.name p) with
  | none => exact ⟨⟨_, 0, .inl ⟨⟨rfl, rfl⟩, rfl, rfl⟩⟩, fun _ => rfl⟩
  | some state =>
    have hlive := h state hstate d hd
    rw [hkind] at hlive
    have hleft := hlive stopOn shuffled hordering
    rw [Option.getD_some]
    split at hleft
    · cases shuffled with
      | false =>
        obtain ⟨hnone, hlt, -⟩ := hleft
        exact ⟨⟨_, _, .inr ⟨⟨rfl, by simp⟩, hlt, .refl _, fun _ => rfl⟩⟩, fun _ => hnone⟩
      | true =>
        obtain ⟨order, horder, hperm, hlt, -⟩ := hleft
        exact ⟨⟨order, _, .inr ⟨⟨rfl, fun _ => horder⟩, hlt, hperm, by simp⟩⟩, by simp⟩
    · exact ⟨⟨_, 0, .inl ⟨hleft, rfl, rfl⟩⟩, fun _ => hleft.2⟩

private theorem plain_visit (hfree : (build t).CycleFree) (hp : (build t).Reachable p)
    (hd : ((build t).slot p).definition = some d) (hkind : d.kind = .composite c)
    (hordering : c.ordering? = some (stopOn, false)) (room : Nat) {f : Frame}
    (h : (f.memory ((build t).name p)).shuffledIndices = none) :
    (((build t).visit m room p f).after.memory ((build t).name p)).shuffledIndices = none := by
  have hticks : ∀ child, (build t).Edge p child → ∀ g,
      (g.memory ((build t).name p)).shuffledIndices = none →
        ((tick (build t) m room child g).2.memory ((build t).name p)).shuffledIndices = none := by
    intro child hchild g hg
    rw [Frame.memory, (avoids_child hfree hp hchild).state_tick]
    exact hg
  have hstretches := plain_stretches ((build t).name p) stopOn ((build t).slot p).children
  have hscript := script_of_ordering hd hkind hordering (m := m) ((build t).enter m room p f)
  rw [← memory_enter m room p f] at h
  rw [visit, tick_succ]
  dsimp only
  rw [memory_leave]
  refine Script.run_relates (r := fun f g => (f.memory ((build t).name p)).shuffledIndices = none →
    (g.memory ((build t).name p)).shuffledIndices = none) (fun hfg hgh h => hgh (hfg h)) hticks ?_
    (calls_script _ m p _) h
  rw [hscript]
  exact hstretches _ _ _

private theorem isRunning_of_mem_calls (hunshared : t.Unshared) (hfree : (build t).CycleFree)
    (hp : (build t).Reachable p) {room : Nat} {f : Frame} (hf : f.store.Sound)
    {a : Call (build t).size} (ha : a ∈ ((build t).visit m room p f).calls)
    (hrunning : a.status = .running) :
    (build t).IsRunning ((build t).visit m room p f).after.store a.child := by
  rw [Script.status_of_mem_calls ha] at hrunning
  cases room with
  | zero => cases hrunning
  | succ room =>
    have hvisit : (build t).visit m room a.child a.before ∈
        (build t).visits m (room + 2) p f := by
      rw [visits]
      exact List.mem_cons_of_mem _ (List.mem_flatMap.mpr ⟨a, ha, List.mem_cons_self⟩)
    obtain ⟨state, hstate, hstatus, -⟩ := recorded_tick hunshared hfree hp _ hf hvisit
    exact ⟨state, hstate, hstatus.trans hrunning⟩

/-- A visit of an ordered composite leaves in its memory where its run goes on, or nothing. -/
private theorem resumes_visit (hunshared : t.Unshared) (hfree : (build t).CycleFree)
    (hp : (build t).Reachable p) (hd : ((build t).slot p).definition = some d)
    (hkind : d.kind = .composite c) (hordering : c.ordering? = some (stopOn, shuffled)) (room : Nat)
    {f : Frame} (hf : f.store.Sound) (h : (build t).LiveAt f.store p) :
    let v := (build t).visit m room p f
    if v.status = .running then
      (build t).Resumes v.after.store p (v.after.memory ((build t).name p)) shuffled
    else (v.after.memory ((build t).name p)).Fresh := by
  intro v
  have hstop := stopOn_ne_running hordering
  by_cases hchildren : ((build t).slot p).children = []
  · obtain ⟨g, hscript⟩ := orderedScript_nil (n := (build t).size) ((build t).name p) stopOn shuffled
      (sound_enter (build t) m room p hf)
    rw [← hchildren, ← script_of_ordering hd hkind hordering (m := m)] at hscript
    have hrun : tick (build t) m (room + 1) p f =
        (stopOn.invert, (build t).leave p stopOn.invert (g.updateMemory ((build t).name p) .endRun)) := by
      rw [tick_succ, hscript]
      rfl
    have hstatus : v.status = stopOn.invert := congrArg Prod.fst hrun
    have hafter : v.after.memory ((build t).name p) = (g.memory ((build t).name p)).endRun := by
      have hleft : v.after = _ := congrArg Prod.snd hrun
      rw [hleft, memory_leave, Frame.memory_updateMemory_self]
    rw [if_neg (by rw [hstatus]; exact invert_ne_running hstop), hafter]
    exact Memory.fresh_endRun _
  · obtain ⟨⟨order, position, hgoes⟩, hplain⟩ := goesOn_of_liveAt h hd hkind hordering
    obtain ⟨last, hlast, hpass, hleaves⟩ := visit_passes hd hkind hordering hchildren
      (fun c hc => avoids_child hfree hp hc) room hgoes (m := m)
    rw [Memory.Leaves] at hleaves
    by_cases hrunning : v.status = .running
    · rw [if_pos hrunning] at hleaves ⊢
      obtain ⟨child, hchild, hmem⟩ := hpass.exists_running hstop hrunning
      obtain ⟨a, ha, hresult⟩ := List.mem_map.mp hmem
      have hachild : a.child = child := congrArg Prod.fst hresult
      have hastatus : a.status = .running := congrArg Prod.snd hresult
      have hrecorded := isRunning_of_mem_calls hunshared hfree hp hf ha hastatus
      rw [hachild] at hrecorded
      obtain ⟨hindex, hshuffled⟩ := hleaves
      have hlt := hlast
      rw [hgoes.perm.length_eq, List.length_range, ← hindex] at hlt
      rw [← hindex] at hchild
      cases shuffled with
      | false =>
        rw [hgoes.eq_range rfl, arranged_range] at hchild
        exact ⟨plain_visit hfree hp hd hkind hordering room (hplain rfl), hlt, child, hchild, hrecorded⟩
      | true =>
        rw [getElem?_arranged fun _ hplace => List.mem_range.mp (hgoes.perm.mem_iff.mp hplace)]
          at hchild
        exact ⟨order, hshuffled rfl, hgoes.perm, hlt, child, hchild, hrecorded⟩
    · rw [if_neg hrunning] at hleaves ⊢
      exact hleaves

/-- A visit leaves its node live. -/
theorem liveAt_visit (hunshared : t.Unshared) (hfree : (build t).CycleFree)
    (hp : (build t).Reachable p) (room : Nat) {f : Frame} (hf : f.store.Sound)
    (h : (build t).LiveAt f.store p) :
    (build t).LiveAt ((build t).visit m room p f).after.store p := by
  intro state hstate d hd
  have hfinal : ((build t).visit m room p f).after.state ((build t).name p) = state := by
    rw [Frame.state, Store.state, hstate, Option.getD_some]
  have hstatus := (state_visit hfree hp room f (m := m)).1
  rw [hfinal] at hstatus
  cases hkind : d.kind with
  | composite c =>
    intro stopOn shuffled hordering
    have hleft := resumes_visit hunshared hfree hp hd hkind hordering room hf h (m := m)
    dsimp only at hleft
    rw [Frame.memory, hfinal, ← hstatus] at hleft
    exact hleft
  | decorator c =>
    intro hforwards hrunning
    rw [hstatus, visit, tick_succ] at hrunning
    have hscript : (build t).script m p ((build t).enter m room p f) =
        c.script m ⟨((build t).slot p).node, d⟩ ((build t).slot p).children
          ((build t).enter m room p f) := script_of_decorator hd hkind m _
    dsimp only at hrunning
    rw [hscript] at hrunning
    obtain ⟨a, ha, hchild, hchildRunning⟩ := running_of_forwards hforwards m _ hrunning
    rw [← hscript] at ha
    exact ⟨a.child, hchild, isRunning_of_mem_calls hunshared hfree hp hf ha hchildRunning⟩
  | action a => trivial
  | condition c => trivial

/-- Whether a node leaves all others that it leads to live. -/
private def LiveBeneath (ix : Index) (p : Fin ix.size) (s : Store) : Prop :=
  ∀ q, TransGen ix.Edge p q → ix.LiveAt s q

private theorem LiveBeneath.of_own (hfree : (build t).CycleFree) (hp : (build t).Reachable p)
    {s s' : Store} (h : (build t).LiveBeneath p s)
    (hown : ∀ id, id ≠ (build t).name p → s'.get? id = s.get? id) : (build t).LiveBeneath p s' := by
  have hne : ∀ q, TransGen (build t).Edge p q → (build t).name q ≠ (build t).name p := by
    intro q hq hname
    have hreach := reachable_leads hp hq.to_reflTransGen
    rw [name_injective_of_reachable hreach hp hname] at hq
    exact hfree p hp hq
  intro q hq
  exact (h q hq).congr (hown _ (hne q hq)) fun c hc => hown _ (hne c (hq.tail hc))

private theorem LiveBeneath.tick (hunshared : t.Unshared) (hfree : (build t).CycleFree)
    (hp : (build t).Reachable p) {c : Fin (build t).size} (hc : (build t).Edge p c) {room : Nat}
    {f : Frame} (h : (build t).LiveBeneath p f.store)
    (hbelow : ∀ q, ReflTransGen (build t).Edge c q →
      (build t).LiveAt (BehaviorTree.tick (build t) m room c f).2.store q) :
    (build t).LiveBeneath p (BehaviorTree.tick (build t) m room c f).2.store := by
  have hcreach := reachable_step hp hc
  have hkept : ∀ q, (build t).Reachable q → ¬ ReflTransGen (build t).Edge c q →
      (BehaviorTree.tick (build t) m room c f).2.store.get? ((build t).name q) =
        f.store.get? ((build t).name q) := by
    intro q hq hnot
    refine Avoids.get?_tick (fun q' hq' hname => hnot ?_) m room f
    rwa [← name_injective_of_reachable (reachable_leads hcreach hq') hq hname]
  intro q hq
  have hqreach := reachable_leads hp hq.to_reflTransGen
  by_cases hlead : ReflTransGen (build t).Edge c q
  · exact hbelow q hlead
  · refine (h q hq).congr (hkept q hqreach hlead) fun d hd => ?_
    refine hkept d (reachable_step hqreach hd) fun hlead' => ?_
    rcases (unshared_build hunshared).eq_or_leads_parent hlead' hd with rfl | hback
    · rw [(unshared_build hunshared).parent hd hc] at hq
      exact hfree p hp hq
    · exact hlead hback

/-- A tick leaves all live that the ticked node leads to, if it was before. -/
theorem live_tick (hunshared : t.Unshared) (hfree : (build t).CycleFree) (room : Nat)
    (hp : (build t).Reachable p) {f : Frame} (hf : f.store.Sound)
    (h : ∀ q, ReflTransGen (build t).Edge p q → (build t).LiveAt f.store q) :
    ∀ q, ReflTransGen (build t).Edge p q →
      (build t).LiveAt (tick (build t) m room p f).2.store q := by
  -- What the ticked node leads to beside itself is live before and after each stretch of its script and
  -- each tick of a child. The node itself is so again only when its result is recorded.
  induction room generalizing p f with
  | zero => exact h
  | succ room ih =>
    have hbeneath : (build t).LiveBeneath p f.store := fun q hq => h q hq.to_reflTransGen
    have hstretches : ((build t).script m p ((build t).enter m room p f)).Stretches
        (fun f g => f.store.Sound ∧ (build t).LiveBeneath p f.store →
          g.store.Sound ∧ (build t).LiveBeneath p g.store) ((build t).enter m room p f) := by
      rw [script]
      cases ((build t).slot p).definition with
      | none => exact id
      | some d =>
        refine (stretches_script m ⟨((build t).slot p).node, d⟩ ((build t).slot p).children _).imp ?_
        rintro f g hfg ⟨hsound, hlive⟩
        exact ⟨hfg.sound hsound, hlive.of_own hfree hp fun _ hne => hfg.get?_of_ne hne⟩
    have hticks : ∀ c, (build t).Edge p c → ∀ f : Frame,
        f.store.Sound ∧ (build t).LiveBeneath p f.store →
          (tick (build t) m room c f).2.store.Sound ∧
            (build t).LiveBeneath p (tick (build t) m room c f).2.store := by
      rintro c hc f ⟨hsound, hlive⟩
      have hbelow := ih (reachable_step hp hc) hsound fun q hq => hlive q (TransGen.head' hc hq)
      exact ⟨sound_tick _ m room c hsound, hlive.tick hunshared hfree hp hc hbelow⟩
    have hscript := Script.run_relates (fun hfg hgh hf => hgh (hfg hf)) hticks hstretches
      (calls_script _ m p _)
    have henter : ((build t).enter m room p f).store.Sound ∧
        (build t).LiveBeneath p ((build t).enter m room p f).store :=
      ⟨sound_enter _ m room p hf,
        hbeneath.of_own hfree hp fun _ hne => get?_enter_of_ne m room f hne⟩
    intro q hq
    rcases reflTransGen_iff_eq_or_transGen.mp hq with rfl | hq
    · exact liveAt_visit hunshared hfree hp room hf (h q .refl)
    · rw [tick_succ]
      exact (hscript henter).2.of_own hfree hp (fun _ hne => get?_leave_of_ne _ hne _) q hq

end Index

end BehaviorTree
