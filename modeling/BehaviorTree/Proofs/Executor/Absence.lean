import BehaviorTree.Proofs.Executor.Coherence
import BehaviorTree.Proofs.Tick.Chronicle
import BehaviorTree.Proofs.Tree.Reach

/-!
# Absent actors

A tree whose acting entity is not in the world is ticked in vain: its actions fail before they look at
anything, and no other node reaches beyond the tree.
-/

namespace BehaviorTree

open Index

def Tree.acts (t : Tree) (id : String) : Bool :=
  (t.node? id).any fun n => n.definition?.any (·.category = .action)

/-- What ticks come to in vain: they leave what surrounds the tree and what its actions remember
alone, send no message, and each action among their visits fails. -/
structure Vain (t : Tree) (f : Frame) (vs : List (Visit (build t).size)) (g : Frame) : Prop where
  surroundings : g.surroundings = f.surroundings
  messages : messagesOf g.journal = messagesOf f.journal
  memory : ∀ id, t.acts id → g.memory id = f.memory id
  failed : ∀ id, t.acts id → (f.state id).status = .failure → (g.state id).status = .failure
  visited : ∀ v ∈ vs, t.acts ((build t).name v.node) →
    v.status = .failure ∧ (g.state ((build t).name v.node)).status = .failure

namespace Vain

variable {t : Tree} {f g h : Frame} {v : Visit (build t).size} {xs ys : List (Visit (build t).size)}

theorem world (h : Vain t f xs g) : g.world = f.world := congrArg (·.world) h.surroundings

theorem append (hxs : Vain t f xs g) (hys : Vain t g ys h) : Vain t f (xs ++ ys) h where
  surroundings := hys.surroundings.trans hxs.surroundings
  messages := hys.messages.trans hxs.messages
  memory id hid := (hys.memory id hid).trans (hxs.memory id hid)
  failed id hid hf := hys.failed id hid (hxs.failed id hid hf)
  visited v hv hid := by
    rcases List.mem_append.mp hv with hv | hv
    · obtain ⟨hstatus, hstate⟩ := hxs.visited v hv hid
      exact ⟨hstatus, hys.failed _ hid hstate⟩
    · exact hys.visited v hv hid

theorem trans (hxs : Vain t f xs g) (h' : Vain t g [] h) : Vain t f xs h := by
  have hall := hxs.append h'
  rwa [List.append_nil] at hall

theorem visit (h : Vain t f xs g) (hv : t.acts ((build t).name v.node) →
    v.status = .failure ∧ (g.state ((build t).name v.node)).status = .failure) :
    Vain t f (v :: xs) g :=
  { h with visited := List.forall_mem_cons.mpr ⟨hv, h.visited⟩ }

theorem keeps_of_state_eq {id : String} (h : g.state id = f.state id) :
    g.memory id = f.memory id ∧
      ((f.state id).status = .failure → (g.state id).status = .failure) := by
  rw [Frame.memory, h]
  exact ⟨rfl, fun hfailed => hfailed⟩

theorem of_states (hsurroundings : g.surroundings = f.surroundings)
    (hmessages : messagesOf g.journal = messagesOf f.journal)
    (hstates : ∀ id, t.acts id → g.memory id = f.memory id ∧
      ((f.state id).status = .failure → (g.state id).status = .failure)) : Vain t f [] g where
  surroundings := hsurroundings
  messages := hmessages
  memory id hid := (hstates id hid).1
  failed id hid := (hstates id hid).2
  visited _ hv := absurd hv List.not_mem_nil

end Vain

namespace Index

variable {t : Tree} {m : Moment} {p : Fin (build t).size} {f : Frame}

theorem acts_name_iff (hp : (build t).Reachable p) : t.acts ((build t).name p) ↔
    ∃ d a, ((build t).slot p).definition = some d ∧ d.kind = .action a := by
  rw [Tree.acts, Tree.node?_name hp, Option.any_some, slot_build]
  cases (t.nodes.get p).definition? with
  | none => simp
  | some d => cases hd : d.kind <;> simp [Definition.category, Kind.category, hd]

private theorem vain_enter (m : Moment) (room : Nat) (p : Fin (build t).size) (f : Frame) :
    Vain t f [] ((build t).enter m room p f) := by
  refine .of_states rfl (messagesOf_enter m room p f) fun id _ => ?_
  by_cases hid : id = (build t).name p
  · subst hid
    rw [memory_enter, status_enter]
    exact ⟨rfl, fun hfailed => hfailed⟩
  · exact Vain.keeps_of_state_eq (Frame.state_congr (get?_enter_of_ne m room f hid))

private theorem vain_leave {status : Status}
    (h : t.acts ((build t).name p) → status = .failure) (f : Frame) :
    Vain t f [] ((build t).leave p status f) := by
  refine .of_states rfl (messagesOf_leave p f status) fun id hacts => ?_
  by_cases hid : id = (build t).name p
  · subst hid
    rw [memory_leave, state_leave]
    exact ⟨rfl, fun _ => h hacts⟩
  · exact Vain.keeps_of_state_eq (Frame.state_congr (get?_leave_of_ne f hid status))

private theorem vain_stretches (hp : (build t).Reachable p) (h : ¬ t.acts ((build t).name p))
    (m : Moment) (f : Frame) : ((build t).script m p f).Stretches (Vain t · [] ·) f := by
  have hkind := h
  rw [acts_name_iff hp] at hkind
  simp only [not_exists, not_and] at hkind
  rw [script]
  cases hd : ((build t).slot p).definition with
  | none => exact .of_states rfl rfl fun _ _ => Vain.keeps_of_state_eq rfl
  | some d =>
    have hinwards := stretches_inwards m (s := ⟨((build t).slot p).node, d⟩)
      (fun a => hkind d a hd) ((build t).slot p).children f
    refine hinwards.imp fun f g hfg => .of_states hfg.surroundings hfg.messages fun id hacts => ?_
    have hne : id ≠ (build t).name p := fun heq => h (heq ▸ hacts)
    exact Vain.keeps_of_state_eq (Frame.state_congr (hfg.effects.get?_of_ne hne))

private theorem script_of_absent (hp : (build t).Reachable p) (h : t.acts ((build t).name p))
    (hf : f.world.get? m.agent = none) :
    (build t).script m p f = .finish .failure f := by
  obtain ⟨d, a, hd, ha⟩ := (acts_name_iff hp).mp h
  exact (script_of_action hd ha m f).1 hf

private theorem vain_action (hp : (build t).Reachable p) (h : t.acts ((build t).name p)) (room : Nat)
    (hf : f.world.get? m.agent = none) :
    Vain t f ((build t).visits m (room + 1) p f) (tick (build t) m (room + 1) p f).2 := by
  have hentered : ((build t).enter m room p f).world.get? m.agent = none := hf
  have hscript := script_of_absent hp h hentered
  obtain ⟨hstatus, -, -⟩ := visit_of_finish hscript
  have hrecorded := status_visit (build t) m room p f
  have hcalls : ((build t).visit m room p f).calls = [] := by
    simp only [Index.visit, hscript, Script.calls]
  rw [visits, hcalls, List.flatMap_nil]
  refine Vain.visit ?_ fun _ => ⟨hstatus, hrecorded.trans hstatus⟩
  rw [tick_succ, hscript]
  exact (vain_enter m room p f).trans (vain_leave (fun _ => rfl) _)

/-- Where the acting entity is absent, all ticks are in vain. -/
theorem vain_tick (hp : (build t).Reachable p) (room : Nat) (hf : f.world.get? m.agent = none) :
    Vain t f ((build t).visits m room p f) (tick (build t) m room p f).2 := by
  induction room generalizing p f with
  | zero =>
    have hmessages := messagesOf_push f.journal (.tooDeep ((build t).name p))
    exact .of_states rfl (hmessages.trans (List.append_nil _)) fun _ _ => Vain.keeps_of_state_eq rfl
  | succ room ih =>
    by_cases h : t.acts ((build t).name p)
    · exact vain_action hp h room hf
    · have habsent : ∀ f g, Vain t f [] g → f.world.get? m.agent = none → Vain t f [] g :=
        fun _ _ hfg _ => hfg
      have hstretches := (vain_stretches hp h m ((build t).enter m room p f)).imp habsent
      have hticks : ∀ c, (build t).Edge p c → ∀ g, g.world.get? m.agent = none →
          Vain t g ((build t).visits m room c g) (tick (build t) m room c g).2 :=
        fun c hc g hg => ih (reachable_step hp hc) hg
      have hscript := Script.run_tells
        (r := fun f vs g => f.world.get? m.agent = none → Vain t f vs g)
        (fun hfg hgh hf => (hfg hf).append (hgh ((hfg hf).world ▸ hf)))
        hticks hstretches (calls_script _ m p _) hf
      rw [visits, tick_succ]
      refine Vain.visit ?_ fun hacts => absurd hacts h
      have hbody := (vain_enter m room p f).append hscript
      exact hbody.trans (vain_leave (fun hacts => absurd hacts h) _)

end Index

namespace Executor

/-- Where its acting entity is absent, a tree is ticked in vain: it leaves the world and its saved
variables as they are, only adds those to the variables of the tick that are missing there, and sends
no message. Each action that is ticked fails, and none remembers anything new. -/
theorem vain_execute {e : Executor} (he : e.Coherent) {i : Input}
    (h : i.scene.world.get? i.agent = none) :
    let done := e.execute i.agent i.dt i.scene
    done.scene.world = i.scene.world ∧
      done.executor.tree = e.tree ∧
      done.scene.blackboard = (if e.tree.rootNode?.isSome
        then i.scene.blackboard.mergeMissing e.tree.blackboard else i.scene.blackboard) ∧
      messagesOf done.journal = [] ∧
      (∀ v ∈ e.visits (build e.tree) i, e.tree.acts ((build e.tree).name v.node) →
        v.status = .failure ∧
          (done.executor.store.state ((build e.tree).name v.node)).status = .failure) ∧
      ∀ id, e.tree.acts id →
        (done.executor.store.state id).memory = (e.store.state id).memory := by
  intro done
  rw [← map_node_root, Option.isSome_map, visits]
  cases hroot : (build e.tree).root with
  | none =>
    have hdone : done = _ := execute_of_rootless (by rw [he]; exact hroot)
    rw [hdone]
    exact ⟨rfl, rfl, rfl, rfl, fun v hv => absurd hv List.not_mem_nil, fun id _ => rfl⟩
  | some root =>
    have hvain := vain_tick (m := ⟨i.agent, clampStep i.dt⟩) (f := e.start i.scene)
      ⟨root, hroot, .refl⟩ ((build e.tree).size + 1) h
    have hdone : done = _ := execute_of_index he hroot
    rw [hdone]
    have hsaved := congrArg (·.saved) hvain.surroundings
    refine ⟨hvain.world, ?_, congrArg (·.blackboard) hvain.surroundings, hvain.messages,
      hvain.visited, hvain.memory⟩
    exact congrArg (fun b => { e.tree with blackboard := b }) hsaved

theorem vain_execute_waiting :
    let nodes : List Node := [⟨"root", "repeater", ∅⟩, ⟨"leaf", "wait", ∅⟩]
    let t : Tree :=
      { Tree.single "repeater" ["leaf"] with
        nodes := nodes, blackboard := .ofList [("k", .bool true)] }
    let e := (ofGenerator t ⟨0⟩).after
      [⟨"actor", 0.5, World.empty.insert (.create "actor" ⟨0, 0⟩), ∅⟩]
    let i : Input := ⟨"actor", 0.5, World.empty.insert (.create "other" ⟨0, 0⟩), ∅⟩
    let done := e.execute i.agent i.dt i.scene
    e.Coherent ∧ i.scene.world.get? i.agent = none ∧
      (e.visits (build e.tree) i).map (·.status) = [.running, .failure] ∧
      done.scene.world = i.scene.world ∧
      done.scene.blackboard = i.scene.blackboard.mergeMissing e.tree.blackboard ∧
      messagesOf done.journal = [] ∧
      (done.executor.store.state "leaf").memory = (e.store.state "leaf").memory ∧
      (e.store.state "leaf").memory.elapsed = 0.5 := by
  intro nodes t e i done
  have he : e.Coherent := ((Reachable.new t ⟨0⟩).after _).currentIndex_eq
  have habsent : i.scene.world.get? i.agent = none := by decide +kernel
  obtain ⟨hworld, -, hblackboard, hmessages, -, hmemory⟩ := vain_execute he habsent
  rw [if_pos (by decide +kernel)] at hblackboard
  exact ⟨he, habsent, by decide +kernel, hworld, hblackboard, hmessages,
    hmemory "leaf" (by decide +kernel), by decide +kernel⟩

end Executor

end BehaviorTree
