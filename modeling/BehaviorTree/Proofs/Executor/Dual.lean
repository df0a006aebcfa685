import BehaviorTree.Proofs.Executor.Play
import BehaviorTree.Proofs.Tick.Depth
import BehaviorTree.Proofs.Tick.Mirror
import BehaviorTree.Proofs.Tree.Dual

/-!
# Plays of trees with a composite turned round

A tree plays as one in which an ordered composite is turned round. Walks from the root get longer by
two nodes where they pass the composite, and there are at least two nodes more to tick within one
another. Where the composite is ticked, the law of duality relates its run to that of the new node.
-/

namespace BehaviorTree

variable {t : Tree} {n : Node} {q : String} {wrap : Nat → String}

namespace Tree

theorem size_dualize (hwf : t.WellFormed) (hn : n ∈ t.nodes)
    (htype : n.type ∈ Catalog.orderedTypes) (q : String) (wrap : Nat → String) :
    (Index.build t).size + 2 ≤ (Index.build (t.dualize n q wrap)).size := by
  obtain ⟨d, -, c, -, -, hd, hkind, -⟩ := Catalog.lookup_dualType htype
  have hmin := (hwf.fitting n hn d hd).1
  rw [Definition.category, hkind] at hmin
  have hcount : 1 ≤ (t.outgoing n.id).length := by
    rw [← List.length_map (f := (·.1)), map_fst_outgoing, ← List.countP_eq_length_filter]
    exact hmin
  have hlength : (t.dualize n q wrap).nodes.length =
      t.nodes.length + ((t.outgoing n.id).length + 1) := by
    rw [dualize, List.length_append, List.length_map, List.length_cons, List.length_map]
  change t.nodes.length + 2 ≤ (t.dualize n q wrap).nodes.length
  omega

theorem exists_root_dualize {root : Fin (Index.build t).size}
    (hroot : (Index.build t).root = some root) (n : Node) (q : String) (wrap : Nat → String) :
    ∃ root', (Index.build (t.dualize n q wrap)).root = some root' ∧
      (Index.build t).name root = (Index.build (t.dualize n q wrap)).name root' := by
  obtain ⟨id, hid, hposition⟩ := Option.bind_eq_some_iff.mp hroot
  have hnames : (t.dualize n q wrap).Names id :=
    names_dualize.mpr (.inl (Index.names_of_position? hposition))
  obtain ⟨root', hroot'⟩ := Index.exists_position? hnames
  refine ⟨root', Option.bind_eq_some_iff.mpr ⟨id, hid, hroot'⟩, ?_⟩
  have hname := (Index.position?_eq_some_iff.mp hposition).1
  have hname' := (Index.position?_eq_some_iff.mp hroot').1
  exact ((Index.name_build t root).trans hname).trans
    ((Index.name_build (t.dualize n q wrap) root').trans hname').symm

end Tree

namespace Index

/-- Whether positions have one name, and the first is at the end of a walk that leaves so much room. -/
structure Facing (t t' : Tree) (root : Fin (build t).size) (room : Nat) (a : Fin (build t).size)
    (a' : Fin (build t').size) : Prop where
  name : (build t).name a = (build t').name a'
  walk : ∃ k, Walk (build t).Edge k root a ∧ room + k = (build t).size + 1

section

variable (hwf : t.WellFormed) (h : t.Spares q wrap) {root : Fin (build t).size}
  (hroot : (build t).root = some root) {m : Moment} {room room' : Nat} {a : Fin (build t).size}
  {a' : Fin (build (t.dualize n q wrap)).size} {f g : Frame}

include hwf hroot in
theorem Facing.room_pos {t' : Tree} {a' : Fin (build t').size} (hfacing : Facing t t' root room a a') :
    0 < room := by
  obtain ⟨k, hwalk, hroom⟩ := hfacing.walk
  have hlt := lt_size_of_cycleFree hroot (cycleFree_of_acyclic hwf.acyclic) hwalk
  omega

include hwf h in
theorem Facing.slot (hfacing : Facing t (t.dualize n q wrap) root (room + 1) a a')
    (hne : (build t).name a ≠ n.id) :
    SameSlot (fun c c' => (build t).Edge a c ∧ Facing t (t.dualize n q wrap) root room c c')
      ((build t).slot a) ((build (t.dualize n q wrap)).slot a') := by
  obtain ⟨hname, k, hwalk, hroom⟩ := hfacing
  apply (sameSlot_dualize hwf h hname hne).imp
  rintro c c' ⟨hedge, hname⟩
  exact ⟨hedge, hname, k + 1, hwalk.snoc hedge, by omega⟩

include hwf h hroot in
/-- Below the node, nothing has changed but the room. -/
theorem simulates_below :
    Simulates (build t) (build (t.dualize n q wrap)) (Store.Ongoing t n.id q) (· = ·)
      fun room a room' a' => Facing t (t.dualize n q wrap) root room a a' ∧ room ≤ room' ∧
        (build t).Avoids a n.id where
  room := by
    rintro room a room' a' ⟨hfacing, hle, -⟩
    have hpos := hfacing.room_pos hwf hroot
    omega
  slot := by
    rintro room a room' a' ⟨hfacing, hle, havoids⟩
    apply (hfacing.slot hwf h (havoids a .refl)).imp
    rintro c c' ⟨hedge, hfacing⟩
    exact ⟨hfacing, by omega, havoids.child hedge⟩
  shows := by
    rintro room a room' a' ⟨-, -, havoids⟩
    exact Store.shows_ongoing (names_name a) (havoids a .refl) h.dual
  draws _ _ _ _ := rfl

/-- Whether a new inverter stands between the new node and a child, which does not lead back. -/
private structure Wrapped (t : Tree) (n : Node) (q : String) (wrap : Nat → String)
    (root : Fin (build t).size) (room : Nat) (c : Fin (build t).size)
    (w : Fin (build (t.dualize n q wrap)).size) : Prop where
  name : ∃ j, (build (t.dualize n q wrap)).name w = wrap j
  child : ∃ c', (build (t.dualize n q wrap)).Inverts w c' ∧
    Facing t (t.dualize n q wrap) root room c c'
  avoids : (build t).Avoids c n.id

include hwf h hroot in
private theorem ticksAlike_wrapped (hn : t.Names n.id) (hroom : room ≤ room') :
    TicksAlike (Wrapped t n q wrap root room) (Frame.Like (Store.Ongoing t n.id q) (· = ·))
      (Decorator.invert · (tick (build t) m room))
      (tick (build (t.dualize n q wrap)) m (room' + 1)) := by
  rintro c w ⟨⟨j, hw⟩, ⟨c', hinverts, hfacing⟩, havoids⟩ f g hf
  have hnames : ¬ t.Names ((build (t.dualize n q wrap)).name w) := hw ▸ h.wraps j
  have hne : (build (t.dualize n q wrap)).name w ≠ q := hw ▸ h.ne j
  obtain ⟨hstatus, hframe⟩ := (simulates_below hwf h hroot).alike_tick ⟨hfacing, hroom, havoids⟩
    (hf.enter_right hn hnames hne m room')
  rw [hinverts.tick]
  dsimp only [Decorator.invert]
  rw [← hstatus]
  exact .of (hframe.leave_right hn hnames hne _)

variable (hn : n ∈ t.nodes) (htype : n.type ∈ Catalog.orderedTypes)

include hwf h hroot hn in
private theorem forall₂_wrapped (hfacing : Facing t (t.dualize n q wrap) root (room + 1) a a')
    (ha : (build t).name a = n.id) {b : Fin (build (t.dualize n q wrap)).size}
    (hb : (build (t.dualize n q wrap)).name b = q) :
    List.Forall₂ (Wrapped t n q wrap root room) ((build t).slot a).children
      ((build (t.dualize n q wrap)).slot b).children := by
  obtain ⟨k, hwalk, hroom⟩ := hfacing.walk
  have hedges : ∀ c ∈ ((build t).slot a).children, (build t).Edge a c := fun _ hc => hc
  refine ((List.forall₂_and_left _ _).mpr ⟨hedges, forall₂_children_dual hwf h hn ha hb⟩).imp ?_
  rintro c w ⟨hedge, hname, c', hinverts, hc⟩
  refine ⟨hname, ⟨c', hinverts, hc, k + 1, hwalk.snoc hedge, by omega⟩, ?_⟩
  rw [← ha]
  exact avoids_child (cycleFree_of_acyclic hwf.acyclic) ⟨root, hroot, hwalk.reflTransGen⟩ hedge

include hwf h hroot hn htype in
private theorem alike_tick_dual (hfacing : Facing t (t.dualize n q wrap) root (room + 1) a a')
    (ha : (build t).name a = n.id) (hroom : room ≤ room')
    (hf : f.Like (Store.Mirrored t n.id q) (· = ·) g) :
    Alike (Frame.Like (Store.Mirrored t n.id q) (· = ·)) (tick (build t) m (room + 1) a f)
      (tick (build (t.dualize n q wrap)) m (room' + 3) a' g) := by
  have hnames : t.Names n.id := ⟨n, hn, rfl⟩
  have ha' : (build (t.dualize n q wrap)).name a' = n.id := hfacing.name.symm.trans ha
  obtain ⟨b, hinverts, hb⟩ := exists_inverts_dual hwf h hn ha'
  obtain ⟨d, d', c, stopOn, shuffled, hd, hkind, hd', hkind', hordering⟩ :=
    definition_dual hwf h hn htype ha hb
  have hbegun := hf.enter_mirrored hnames h.dual ha ha' hb m room (room' + 2) (room' + 1)
  have hrun := alike_ordered (Store.sharesRun_ongoing hnames h.dual)
    (ticksAlike_wrapped hwf h hroot hnames hroom (m := m))
    (forall₂_wrapped hwf h hroot hn hfacing ha hb) stopOn.invert (fun _ : shuffled = true => rfl)
    hbegun
  rw [Composite.ordered_invert hbegun.store.sound] at hrun
  obtain ⟨hstatus, hframe⟩ := hrun
  dsimp only at hstatus hframe
  rw [tick_ordered hd hkind hordering, hinverts.tick,
    tick_ordered hd' hkind' (Composite.ordering?_dual hordering), ha, hb]
  dsimp only
  rw [← hstatus, Status.invert_invert]
  exact .of (hframe.leave_ongoing hnames h.dual ha ha' hb _ _)

include hwf h hroot hn htype in
theorem alike_tick_dualize (hfacing : Facing t (t.dualize n q wrap) root room a a')
    (hroom : room + 2 ≤ room') (hf : f.Like (Store.Mirrored t n.id q) (· = ·) g) :
    Alike (Frame.Like (Store.Mirrored t n.id q) (· = ·)) (tick (build t) m room a f)
      (tick (build (t.dualize n q wrap)) m room' a' g) := by
  induction room generalizing room' a a' f g with
  | zero => exact absurd (hfacing.room_pos hwf hroot) (lt_irrefl 0)
  | succ room ih =>
    -- Both sides go down in step but at the node, where the second one spends its two spare nodes.
    by_cases ha : (build t).name a = n.id
    · obtain ⟨spare, rfl⟩ := Nat.exists_eq_add_of_le' (show 3 ≤ room' by omega)
      exact alike_tick_dual hwf h hroot hn htype hfacing ha (by omega) hf
    · obtain ⟨room', rfl⟩ := Nat.exists_eq_add_of_le' (show 1 ≤ room' by omega)
      apply alike_tick_succ (hfacing.slot hwf h ha) (Store.shows_mirrored (names_name a) ha h.dual)
        (fun _ _ _ => rfl) _ hf
      rintro c c' ⟨-, hfacing⟩ f g hf
      exact ih hfacing (by omega) hf

include hwf h in
theorem rootsAlike_dualize (hn : n ∈ t.nodes) (htype : n.type ∈ Catalog.orderedTypes) :
    Executor.RootsAlike (Store.Mirrored t n.id q) (· = ·) (build t)
      (build (t.dualize n q wrap)) := by
  obtain ⟨root, hroot⟩ := hwf.root_build
  obtain ⟨root', hroot', hname⟩ := Tree.exists_root_dualize hroot n q wrap
  have hsize := Tree.size_dualize hwf hn htype q wrap
  rw [Executor.RootsAlike, hroot, hroot']
  refine .some fun m f g hf => ?_
  exact alike_tick_dualize hwf h hroot hn htype ⟨hname, 0, .here root, rfl⟩ (by omega) hf

end

end Index

namespace Executor

/-- A tree in which an ordered composite is turned round plays as before, under the same seed. The
composite has the same results, its run goes on in the new node, and the other nodes have the same
states. -/
theorem play_dualize (ht : t.validate = .ok ()) (hn : n ∈ t.nodes)
    (htype : n.type ∈ Catalog.orderedTypes) (h : t.Spares q wrap) (seed : Option UInt64)
    (unseeded : Generator) (scene : Scene) (turns : List Turn) :
    List.Forall₂ (Executed.Like (Store.Mirrored t n.id q) (· = ·))
      ((create t seed unseeded).play scene turns)
      ((create (t.dualize n q wrap) seed unseeded).play scene turns) := by
  have hwf := Tree.fault?_eq_none_iff.mp (Tree.validate_eq_ok_iff.mp ht)
  apply like_play (currentIndex_create t seed unseeded) (currentIndex_create _ seed unseeded)
    (Index.rootsAlike_dualize hwf h hn htype)
  cases seed with
  | none => exact ⟨rfl, Store.mirrored_empty t n.id q, rfl⟩
  | some seed => exact ⟨rfl, Store.mirrored_empty t n.id q, rfl⟩

theorem play_dualize_waiting :
    let t : Tree :=
      { Tree.create "" "" with
        root := some "root"
        nodes := [⟨"root", "random_sequence", ∅⟩, ⟨"first", "wait", ∅⟩, ⟨"second", "always", ∅⟩]
        connections := [⟨"root", "second", 1⟩, ⟨"root", "first", 1⟩] }
    let n : Node := ⟨"root", "random_sequence", ∅⟩
    let wrap (j : Nat) : String := .ofList (List.replicate (j + 7) 'i')
    let turn : Turn := ⟨"actor", 0.5, id⟩
    let scene : Scene := ⟨World.empty.insert (.create "actor" ⟨0, 0⟩), ∅⟩
    t.validate = .ok () ∧ n ∈ t.nodes ∧ n.type ∈ Catalog.orderedTypes ∧ t.Spares "q" wrap ∧
      List.Forall₂ (Executed.Like (Store.Mirrored t n.id "q") (· = ·))
        ((create t (some 1) ⟨0⟩).play scene [turn, turn, turn])
        ((create (t.dualize n "q" wrap) (some 1) ⟨0⟩).play scene [turn, turn, turn]) := by
  intro t n wrap turn scene
  have ht : t.validate = .ok () := by decide +kernel
  have hlength : ∀ j, (wrap j).length = j + 7 := by
    intro j
    simp [wrap]
  have hnames : ∀ id, t.Names id → id.length < 7 := by
    rintro id ⟨m, hm, rfl⟩
    revert m
    decide
  have hspares : t.Spares "q" wrap := by
    refine ⟨?_, fun j hj => ?_, fun j hj => ?_, fun i j hij => ?_⟩
    · unfold Tree.Names
      decide
    · have hlt := hnames _ hj
      rw [hlength] at hlt
      omega
    · have hlt : (wrap j).length = 1 := congrArg String.length hj
      rw [hlength] at hlt
      omega
    · have heq := congrArg String.length hij
      rw [hlength, hlength] at heq
      omega
  have hn : n ∈ t.nodes := List.mem_cons_self
  have htype : n.type ∈ Catalog.orderedTypes := by decide
  exact ⟨ht, hn, htype, hspares, play_dualize ht hn htype hspares (some 1) ⟨0⟩ _ _⟩

end Executor

end BehaviorTree
