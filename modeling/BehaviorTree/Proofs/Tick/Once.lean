import BehaviorTree.Proofs.Executor.Sound
import BehaviorTree.Proofs.Tick.Pass
import BehaviorTree.Proofs.Tick.Thread
import BehaviorTree.Proofs.Tree.Children
import BehaviorTree.Proofs.Tree.Unshared

/-!
# Nodes ticked once

A node asks for each of its children at most once in a tick, whatever its kind. So where no node is
shared and no cycle can be reached, a tick of the root ticks every node at most once, and what it
writes of a node is what that one tick of it writes.
-/

namespace BehaviorTree

open Relation

namespace Script

variable {n : Nat} {tick : Ticker n}

def asked (tick : Ticker n) (s : Script n) : List (Fin n) := (s.calls tick).map (·.child)

@[simp] theorem asked_call (child : Fin n) (f : Frame) (next : Status → Frame → Script n) :
    (call child f next).asked tick =
      child :: (next (tick child f).1 (tick child f).2).asked tick := rfl

theorem asked_each (tick : Ticker n) {finish : List Status → Frame → Script n}
    (hfinish : ∀ statuses f, (finish statuses f).asked tick = []) (children : List (Fin n))
    (f : Frame) : (each finish children f).asked tick = children := by
  induction children generalizing finish f with
  | nil => exact hfinish [] f
  | cons child rest ih =>
    rw [each, asked_call, ih]
    exact fun _ _ => hfinish _ _

theorem status_of_mem_calls {s : Script n} {c : Call n} (hc : c ∈ s.calls tick) :
    c.status = (tick c.child c.before).1 := by
  induction s with
  | finish _ _ => exact absurd hc List.not_mem_nil
  | call child f next ih =>
    rcases List.mem_cons.mp hc with rfl | hc
    · rfl
    · exact ih _ _ hc

theorem before_of_mem_calls {r : Frame → Frame → Prop} (htrans : ∀ {f g h}, r f g → r g h → r f h)
    (htick : ∀ child f, r f (tick child f).2) {s : Script n} {f : Frame} (hs : s.Stretches r f) :
    ∀ c ∈ s.calls tick, r f c.before := by
  induction s generalizing f with
  | finish _ _ => simp [calls]
  | call child g next ih =>
    intro c hc
    rcases List.mem_cons.mp hc with rfl | hc
    · exact hs.1
    · have hrest := ih _ _ (hs.2 (tick child g).1 (tick child g).2) c hc
      exact htrans hs.1 (htrans (htick child g) hrest)

end Script

section

variable {n : Nat} (tick : Ticker n)

private theorem asked_scriptFrom (id : String) (stopOn : Status) (children : List (Fin n))
    (order : List Nat) (position : Nat) (f : Frame) :
    (Composite.scriptFrom id stopOn children order position f).asked tick <+:
      arranged children order := by
  induction order generalizing position f with
  | nil => exact List.nil_prefix
  | cons place rest ih =>
    rw [Composite.scriptFrom]
    cases hchild : children[place]? with
    | none => exact List.nil_prefix
    | some child =>
      rw [arranged_cons hchild, Script.asked_call, List.cons_prefix_cons]
      refine ⟨rfl, ?_⟩
      generalize (tick child f).2 = g
      cases (tick child f).1 with
      | running => exact List.nil_prefix
      | success | failure =>
        rw [Composite.proceed_of_ended (by decide)]
        split
        · exact List.nil_prefix
        · exact ih (position + 1) g

private theorem asked_ordered (id : String) (stopOn : Status) (shuffled : Bool)
    (children : List (Fin n)) {f : Frame} (hf : f.store.Sound) :
    ((Composite.orderedScript id stopOn shuffled children f).asked tick).Subperm children := by
  have hrun : ∀ (order : List Nat), order.Perm (List.range children.length) →
      ∀ (position : Nat) (g : Frame),
        ((Composite.scriptFrom id stopOn children (order.drop position) position g).asked
          tick).Subperm children := by
    intro order horder position g
    have hasked := asked_scriptFrom tick id stopOn children (order.drop position) position g
    have hdrop : (arranged children (order.drop position)).Sublist (arranged children order) :=
      (List.drop_sublist position order).filterMap _
    exact (hasked.sublist.trans hdrop).subperm.trans (arranged_perm horder).subperm
  cases shuffled with
  | false => exact hrun _ (.refl _) _ f
  | true => exact hrun _ (hf.perm_drawnOrder id children.length) _ _

private theorem asked_composite (c : Composite) (s : Settings) (children : List (Fin n))
    {f : Frame} (hf : f.store.Sound) : ((c.script s children f).asked tick).Subperm children := by
  cases c with
  | parallel =>
    rw [Composite.script, Composite.abreastScript]
    split
    · exact List.nil_subperm
    · rw [Script.asked_each tick fun _ _ => rfl]
  | sequence | selector | randomSelector | randomSequence =>
    rw [Composite.script]
    exact asked_ordered tick _ _ _ _ hf

private theorem asked_afterRun (child : Fin n) (f : Frame) (done : Status → Frame → Status × Frame) :
    (Decorator.afterRun child f done).asked tick = [child] := by
  rw [Script.asked, Decorator.calls_afterRun]
  rfl

private theorem asked_gate (s : Settings) (child? : Option (Fin n)) (f : Frame) :
    (Decorator.gateScript s child? f).asked tick <+: child?.toList := by
  simp only [Decorator.gateScript]
  split
  · exact List.nil_prefix
  · cases child? with
    | none => exact List.nil_prefix
    | some child =>
      rw [Script.asked_call]
      cases (tick child f).1 <;> exact List.prefix_rfl

private theorem asked_limitTime (m : Moment) (s : Settings) (child? : Option (Fin n)) (f : Frame) :
    (Decorator.limitTimeScript m s child? f).asked tick <+: child?.toList := by
  simp only [Decorator.limitTimeScript]
  generalize (if (f.state s.node.id).status = .running then (f.state s.node.id).memory.elapsed
    else 0) + m.delta = elapsed
  split
  · exact List.nil_prefix
  · cases child? with
    | none => exact List.nil_prefix
    | some child => exact List.prefix_rfl

private theorem asked_decorator (d : Decorator) (m : Moment) (s : Settings)
    (children : List (Fin n)) (f : Frame) :
    (d.script m s children f).asked tick <+: children.head?.toList := by
  rw [Decorator.script.eq_def]
  cases children.head? with
  | none =>
    cases d with
    | cooldown => exact asked_gate tick s none f
    | timeout => exact asked_limitTime tick m s none f
    | inverter | succeeder | failer | repeater | repeatUntilFail | repeatUntilSuccess =>
      exact List.nil_prefix
  | some child =>
    cases d with
    | cooldown => exact asked_gate tick s (some child) f
    | timeout => exact asked_limitTime tick m s (some child) f
    | inverter => exact List.prefix_rfl
    | succeeder | failer | repeater | repeatUntilFail | repeatUntilSuccess =>
      dsimp only
      rw [asked_afterRun]
      exact List.prefix_rfl

theorem asked_script (m : Moment) (s : Settings) (children : List (Fin n)) {f : Frame}
    (hf : f.store.Sound) : ((script m s children f).asked tick).Subperm children := by
  rw [script]
  cases s.definition.kind with
  | composite c => exact asked_composite tick c s children hf
  | decorator d =>
    have hhead : children.head?.toList.Sublist children := by cases children <;> simp
    exact ((asked_decorator tick d m s children f).sublist.trans hhead).subperm
  | action a =>
    dsimp only
    cases f.world.get? m.agent <;> exact List.nil_subperm
  | condition c => exact List.nil_subperm

end

namespace Index

variable {ix : Index} {m : Moment} {p : Fin ix.size}

theorem nodup_calls (h : ix.Unshared) (room : Nat) {f : Frame} (hf : f.store.Sound) :
    ((ix.visit m room p f).calls.map (·.child)).Nodup := by
  have henter := ix.sound_enter m room p hf
  change ((ix.script m p (ix.enter m room p f)).asked (tick ix m room)).Nodup
  rw [script]
  cases (ix.slot p).definition with
  | none => exact List.nodup_nil
  | some d =>
    obtain ⟨l, hperm, hsublist⟩ := asked_script (tick ix m room) m ⟨(ix.slot p).node, d⟩
      (ix.slot p).children henter
    exact hperm.nodup_iff.mp ((h.nodup p).sublist hsublist)

theorem sound_before {room : Nat} {f : Frame} (hf : f.store.Sound) {c : Call ix.size}
    (hc : c ∈ (ix.visit m room p f).calls) : c.before.store.Sound := by
  have henter := ix.sound_enter m room p hf
  have hstretches : (ix.script m p (ix.enter m room p f)).Stretches
      (fun f g => f.store.Sound → g.store.Sound) (ix.enter m room p f) := by
    rw [script]
    cases (ix.slot p).definition with
    | none => exact id
    | some d => exact (stretches_script m _ _ _).imp fun _ _ h => h.sound
  exact Script.before_of_mem_calls (fun hfg hgh h => hgh (hfg h))
    (fun child f h => sound_tick ix m room child h) hstretches c hc henter

/-- No node is visited twice in a tick, where none is shared and no cycle can be reached. -/
theorem nodup_visits (h : ix.Unshared) (hfree : ix.CycleFree) (room : Nat) (hp : ix.Reachable p)
    {f : Frame} (hf : f.store.Sound) : ((ix.visits m room p f).map (·.node)).Nodup := by
  induction room generalizing p f with
  | zero => exact List.nodup_nil
  | succ room ih =>
    rw [visits, List.map_cons, List.nodup_cons, List.map_flatMap]
    constructor
    · intro hmem
      obtain ⟨c, hc, hnode⟩ := List.mem_flatMap.mp hmem
      obtain ⟨v, hv, hv'⟩ := List.mem_map.mp hnode
      have hback := (mem_visits hv).1
      rw [hv'] at hback
      exact hfree p hp (TransGen.head' (edge_of_mem_calls hc) hback)
    · rw [List.nodup_flatMap]
      constructor
      · intro c hc
        exact ih (reachable_step hp (edge_of_mem_calls hc)) (sound_before hf hc)
      · have hcalls := List.pairwise_map.mp (nodup_calls h room hf (m := m) (p := p))
        refine hcalls.imp_of_mem ?_
        intro c c' hc hc' hne
        rw [Function.onFun_apply, List.disjoint_left]
        intro q hq hq'
        obtain ⟨v, hv, rfl⟩ := List.mem_map.mp hq
        obtain ⟨v', hv', hnode⟩ := List.mem_map.mp hq'
        have hlead' := (mem_visits hv').1
        rw [hnode] at hlead'
        exact hne (h.eq_of_common hfree hp (edge_of_mem_calls hc) (edge_of_mem_calls hc')
          (mem_visits hv).1 hlead')

theorem exists_parent {room : Nat} {f : Frame} {v : Visit ix.size} (hv : v ∈ ix.visits m room p f) :
    v.node = p ∨ ∃ u ∈ ix.visits m room p f, ix.Edge u.node v.node := by
  induction room generalizing p f with
  | zero => simp [visits] at hv
  | succ room ih =>
    rcases List.mem_cons.mp hv with rfl | hv
    · exact .inl rfl
    · obtain ⟨c, hc, hv⟩ := List.mem_flatMap.mp hv
      rcases ih hv with hnode | ⟨u, hu, hedge⟩
      · refine .inr ⟨ix.visit m room p f, List.mem_cons_self, ?_⟩
        rw [hnode]
        exact edge_of_mem_calls hc
      · exact .inr ⟨u, List.mem_cons_of_mem _ (List.mem_flatMap.mpr ⟨c, hc, hu⟩), hedge⟩

/-- What visits between two frames do to the entry of a name: it is there after a visit of a node of
that name, and as it was without one. -/
structure Touches (ix : Index) (id : String) (f : Frame) (vs : List (Visit ix.size)) (g : Frame) :
    Prop where
  present : (∃ v ∈ vs, ix.name v.node = id) → (g.store.get? id).isSome
  kept : (∀ v ∈ vs, ix.name v.node ≠ id) → g.store.get? id = f.store.get? id

theorem Touches.of_eq {id : String} {f g : Frame} (h : g.store.get? id = f.store.get? id) :
    ix.Touches id f [] g :=
  ⟨fun ⟨_, hv, _⟩ => (nomatch hv), fun _ => h⟩

theorem Touches.append {id : String} {f g h : Frame} {xs ys : List (Visit ix.size)}
    (hxs : ix.Touches id f xs g) (hys : ix.Touches id g ys h) : ix.Touches id f (xs ++ ys) h where
  present := by
    rintro ⟨v, hv, hname⟩
    by_cases hlater : ∃ v ∈ ys, ix.name v.node = id
    · exact hys.present hlater
    · have hxs' : v ∈ xs := (List.mem_append.mp hv).resolve_right fun hv => hlater ⟨v, hv, hname⟩
      rw [hys.kept fun w hw heq => hlater ⟨w, hw, heq⟩]
      exact hxs.present ⟨v, hxs', hname⟩
  kept hnone := by
    rw [hys.kept fun v hv => hnone v (List.mem_append_right xs hv)]
    exact hxs.kept fun v hv => hnone v (List.mem_append_left ys hv)

theorem touches_tick (ix : Index) (m : Moment) (id : String) (room : Nat) (p : Fin ix.size)
    (f : Frame) : ix.Touches id f (ix.visits m room p f) (tick ix m room p f).2 := by
  induction room generalizing p f with
  | zero => exact .of_eq rfl
  | succ room ih =>
    rw [tick_succ, visits]
    dsimp only
    by_cases hid : ix.name p = id
    · refine ⟨fun _ => ?_, fun hnone => absurd hid (hnone _ List.mem_cons_self)⟩
      rw [leave, ← hid]
      simp [Frame.note, Frame.updateState, Store.get?_update]
    · have hstretches : (ix.script m p (ix.enter m room p f)).Stretches (ix.Touches id · [])
          (ix.enter m room p f) := by
        rw [script]
        cases (ix.slot p).definition with
        | none => exact .of_eq rfl
        | some d =>
          refine (stretches_script m ⟨(ix.slot p).node, d⟩ (ix.slot p).children _).imp ?_
          exact fun _ _ h => .of_eq (h.get?_of_ne (Ne.symm hid))
      have hscript := Script.run_tells (r := ix.Touches id) Touches.append (fun c _ => ih c)
        hstretches (calls_script ix m p _)
      constructor
      · rintro ⟨v, hv, hname⟩
        rw [get?_leave_of_ne _ (Ne.symm hid)]
        refine hscript.present ⟨v, (List.mem_cons.mp hv).resolve_left ?_, hname⟩
        rintro rfl
        exact hid hname
      · intro hnone
        rw [get?_leave_of_ne _ (Ne.symm hid),
          hscript.kept fun v hv => hnone v (List.mem_cons_of_mem _ hv),
          get?_enter_of_ne _ _ _ (Ne.symm hid)]

end Index

theorem Effect.runningTime {m : Moment} {s : Settings} {f g : Frame} (h : Effect m s f g)
    (id : String) : (g.state id).runningTime = (f.state id).runningTime := by
  by_cases hid : id = s.node.id
  · subst hid
    cases h with
    | endRun | stay _ | count _ _ _ | complete | elapse _ | turn _ | arrive | linger _ _ =>
      simp only [Frame.updateMemory, Frame.state_updateState_self]
    | shuffle _ | strike _ =>
      rw [Frame.updateMemory, Frame.state_updateState_self]
      rfl
    | move _ _ | halt _ | send _ | write _ _ => rfl
    | draw => simp only [Frame.state]
  · have hstate : g.state id = f.state id := Frame.state_congr (h.get?_of_ne hid)
    rw [hstate]

namespace Index

variable {t : Tree} {m : Moment} {p : Fin (build t).size}

/-- A visit leaves its result in the state of its node, and adds the time step to the running time
there. -/
theorem state_visit (hfree : (build t).CycleFree) (hp : (build t).Reachable p) (room : Nat)
    (f : Frame) :
    let v := (build t).visit m room p f
    (v.after.state ((build t).name p)).status = v.status ∧
      (v.after.state ((build t).name p)).runningTime =
        (f.state ((build t).name p)).runningTime + m.delta := by
  have hstretches : ((build t).script m p ((build t).enter m room p f)).Stretches
      (fun f g => (g.state ((build t).name p)).runningTime = (f.state ((build t).name p)).runningTime)
      ((build t).enter m room p f) := by
    rw [script]
    cases ((build t).slot p).definition with
    | none => rfl
    | some d =>
      refine (stretches_script m ⟨((build t).slot p).node, d⟩ ((build t).slot p).children _).imp ?_
      intro f g h
      induction h with
      | refl => rfl
      | tail _ hstep ih => exact (hstep.runningTime _).trans ih
  have hticks : ∀ c, (build t).Edge p c → ∀ f,
      ((tick (build t) m room c f).2.state ((build t).name p)).runningTime =
        (f.state ((build t).name p)).runningTime := by
    intro c hc f
    rw [(avoids_child hfree hp hc).state_tick]
  have hscript := Script.run_relates
    (r := fun f g =>
      (g.state ((build t).name p)).runningTime = (f.state ((build t).name p)).runningTime)
    (fun hfg hgh => hgh.trans hfg) hticks hstretches (calls_script _ m p _)
  intro v
  dsimp only [v, visit]
  rw [tick_succ]
  dsimp only
  rw [state_leave]
  exact ⟨rfl, hscript.trans (runningTime_enter m room p f)⟩

/-- After a tick the entry of every node that was visited is that of its visit. -/
theorem recorded_tick (h : t.Unshared) (hfree : (build t).CycleFree) (hp : (build t).Reachable p)
    (room : Nat) {f : Frame} (hf : f.store.Sound) {v : Visit (build t).size}
    (hv : v ∈ (build t).visits m room p f) :
    ∃ state, (tick (build t) m room p f).2.store.get? ((build t).name v.node) = some state ∧
      state.status = v.status ∧
        state.runningTime = (f.state ((build t).name v.node)).runningTime + m.delta := by
  obtain ⟨hlead, room', g, hvisit⟩ := mem_visits hv
  have hnode := reachable_leads hp hlead
  have honly : ((build t).visits m room p f).filter (·.node = v.node) = [v] :=
    filter_eq_singleton (nodup_visits (unshared_build h) hfree room hp hf) hv
  have hthread := follows_tick hfree hnode room hp f (m := m)
  rw [Follows, honly] at hthread
  obtain ⟨hbefore, hafter⟩ := hthread
  obtain ⟨hstatus, htime⟩ := state_visit hfree hnode room' g (m := m)
  rw [← hvisit] at hstatus htime
  have hpresent := (touches_tick (build t) m ((build t).name v.node) room p f).present ⟨v, hv, rfl⟩
  obtain ⟨state, hstate⟩ := Option.isSome_iff_exists.mp hpresent
  have hfinal : (tick (build t) m room p f).2.state ((build t).name v.node) = state := by
    rw [Frame.state, Store.state, hstate, Option.getD_some]
  have hstart : v.before = g := by rw [hvisit]; rfl
  rw [hfinal] at hafter
  rw [hafter] at hstatus htime
  rw [← hbefore, hstart]
  exact ⟨state, hstate, hstatus, htime⟩

end Index

end BehaviorTree
