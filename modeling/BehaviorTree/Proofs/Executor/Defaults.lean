import BehaviorTree.Proofs.Executor.Structure
import BehaviorTree.Proofs.Json.Text
import BehaviorTree.Proofs.Tree.Children

/-!
# Parameters left out

A node may leave out the parameters that it sets to their defaults, and those that its type does not
have: the tree plays as it did. Defaults are applied when a node is made and again when it is ticked.
-/

namespace BehaviorTree

namespace Node

def without (n : Node) (names : List String) : Node :=
  { n with data := names.foldl Dict.erase n.data }

/-- Whether a node may leave out a parameter: its type has none of that name, or the value is written
as the default is. -/
def Redundant (n : Node) (name : String) : Prop :=
  ∀ v ∈ n.data.get? name, ∀ p ∈ n.definition?.bind (·.parameter? name), v.compact = p.default.compact

instance (n : Node) (name : String) : Decidable (n.Redundant name) :=
  inferInstanceAs (Decidable (∀ v ∈ n.data.get? name,
    ∀ p ∈ n.definition?.bind (·.parameter? name), v.compact = p.default.compact))

/-- Whether a node is left of another one that leaves out some redundant parameters. -/
def TrimsTo (n n' : Node) : Prop := ∃ names, n' = n.without names ∧ ∀ name ∈ names, n.Redundant name

variable {n n' : Node} {names : List String} {d : Definition}

theorem TrimsTo.id_eq (h : n.TrimsTo n') : n'.id = n.id := by
  obtain ⟨names, rfl, -⟩ := h
  rfl

theorem TrimsTo.definition?_eq (h : n.TrimsTo n') : n'.definition? = n.definition? := by
  obtain ⟨names, rfl, -⟩ := h
  rfl

theorem get?_without (h : ∀ name ∈ names, n.Redundant name) (hd : n.definition? = some d)
    {name : String} {p : Parameter} (hp : d.parameter? name = some p) :
    (n.without names).data.get? name = n.data.get? name ∨
      (n.without names).data.get? name = none ∧ n.data.get? name = some p.default := by
  rw [without, Dict.get?_foldl_erase]
  by_cases hname : name ∈ names
  · rw [if_pos hname]
    cases hv : n.data.get? name with
    | none => exact .inl rfl
    | some v =>
      have hparameter : n.definition?.bind (·.parameter? name) = some p := by
        rw [hd, Option.bind_some, hp]
      have htext := h name hname v hv p hparameter
      exact .inr ⟨rfl, congrArg some (Json.compact_injective htext)⟩
  · exact .inl (if_neg hname)

theorem TrimsTo.agreeOn (h : n.TrimsTo n') (hd : n.definition? = some d) :
    Settings.AgreeOn d.kind.reads ⟨n, d⟩ ⟨n', d⟩ := by
  obtain ⟨names, rfl, hredundant⟩ := h
  have hread : ∀ name ∈ d.kind.reads, ∃ p, d.parameter? name = some p ∧
      ((n.without names).data.get? name = n.data.get? name ∨
        (n.without names).data.get? name = none ∧ n.data.get? name = some p.default) := by
    intro name hname
    obtain ⟨p, hp⟩ := Catalog.parameter?_of_reads hd hname
    exact ⟨p, hp, get?_without hredundant hd hp⟩
  refine ⟨rfl, rfl, fun name hname => ?_, fun name hname => ?_⟩
  · obtain ⟨p, hp, hkept | ⟨hleft, hdefault⟩⟩ := hread name hname
    · simp only [Settings.value?, Settings.default?, hkept]
    · simp [Settings.value?, Settings.default?, hleft, hdefault, hp]
  · obtain ⟨p, hp, hkept | ⟨hleft, hdefault⟩⟩ := hread name hname
    · simp only [Settings.number, Settings.default?, hkept]
    · simp [Settings.number, Settings.default?, hleft, hdefault, hp]

theorem get?_create (id : String) {type : String} (hd : Catalog.lookup type = some d)
    (name : String) : (create id type).data.get? name = (d.parameter? name).map (·.default) := by
  have hall : ∀ d ∈ Catalog.definitions, (d.parameters.map (·.name)).Nodup := by decide +kernel
  have hnodup : ((d.parameters.map fun p => (p.name, p.default)).map (·.1)).Nodup := by
    rw [List.map_map]
    exact hall d (List.mem_of_find?_eq_some hd)
  have hdata : (create id type).data = .ofList (d.parameters.map fun p => (p.name, p.default)) := by
    rw [create, hd]
  rw [hdata, Dict.get?_ofList hnodup, Definition.parameter?]
  induction d.parameters with
  | nil => rfl
  | cons p rest ih =>
    rw [List.map_cons, List.lookup_cons, List.find?_cons, ih, Bool.beq_comm]
    split <;> rfl

theorem redundant_create (id type name : String) : (create id type).Redundant name := by
  intro v hv p hp
  obtain ⟨d, hd, hparameter⟩ := Option.bind_eq_some_iff.mp hp
  have hdefault := get?_create id hd name
  rw [hparameter] at hdefault
  rw [Option.some.inj (hv.symm.trans hdefault)]

theorem trimsTo_create (id type : String) : (create id type).TrimsTo ⟨id, type, ∅⟩ := by
  refine ⟨(create id type).data.keys, ?_, fun name _ => redundant_create id type name⟩
  rw [without, Dict.foldl_erase_keys]
  rfl

theorem TrimsTo.refl (n : Node) : n.TrimsTo n := ⟨[], rfl, by simp⟩

end Node

/-- Whether trees are the same but for redundant parameters that nodes of the second one leave out. -/
structure Tree.TrimsTo (t t' : Tree) : Prop where
  nodes : List.Forall₂ Node.TrimsTo t.nodes t'.nodes
  others : t' = { t with nodes := t'.nodes }

theorem rel_find? {α : Type} {R : α → α → Prop} {p : α → Bool} (hp : ∀ a b, R a b → p a = p b)
    {as bs : List α} (h : List.Forall₂ R as bs) : Option.Rel R (as.find? p) (bs.find? p) := by
  induction h with
  | nil => exact .none
  | @cons a b as bs hhead _ ih =>
    rw [List.find?_cons, List.find?_cons, ← hp a b hhead]
    split
    · exact .some hhead
    · exact ih

variable {t t' : Tree}

theorem Tree.TrimsTo.rel_node? (h : t.TrimsTo t') (id : String) :
    Option.Rel Node.TrimsTo (t.node? id) (t'.node? id) := by
  apply rel_find? _ h.nodes
  intro n n' hn
  rw [hn.id_eq]

theorem Tree.TrimsTo.isSome_node? (h : t.TrimsTo t') (id : String) :
    (t.node? id).isSome = (t'.node? id).isSome := by
  have hnode := h.rel_node? id
  generalize t.node? id = n? at hnode ⊢
  generalize t'.node? id = n?' at hnode ⊢
  cases hnode with
  | none => rfl
  | some _ => rfl

namespace Index

/-- Whether positions stand for one name. -/
def Namesakes (t t' : Tree) (p : Fin (build t).size) (p' : Fin (build t').size) : Prop :=
  ∃ id, position? t.nodes id = some p ∧ position? t'.nodes id = some p'

theorem exists_namesake (h : t.TrimsTo t') (id : String) :
    Option.Rel (Namesakes t t') (position? t.nodes id) (position? t'.nodes id) := by
  apply rel_position? (h.isSome_node? id)
  intro p p' hp hp'
  exact ⟨id, hp, hp'⟩

theorem Namesakes.node (h : t.TrimsTo t') {p : Fin (build t).size} {p' : Fin (build t').size}
    (hp : Namesakes t t' p p') : ((build t).slot p).node.TrimsTo ((build t').slot p').node := by
  obtain ⟨id, hp, hp'⟩ := hp
  have hnode := h.rel_node? id
  rw [node?_eq, node?_eq, hp, hp'] at hnode
  rw [slot_build, slot_build]
  cases hnode with
  | some hnode => exact hnode

theorem Namesakes.children (h : t.TrimsTo t') {p : Fin (build t).size} {p' : Fin (build t').size}
    (hp : Namesakes t t' p p') :
    List.Forall₂ (Namesakes t t') ((build t).slot p).children ((build t').slot p').children := by
  obtain ⟨id, hp, hp'⟩ := hp
  have hconnections : t'.connections = t.connections := by rw [h.others]
  rw [children_build hp, children_build hp', hconnections]
  refine List.rel_filterMap (R := Eq) ?_ (List.forall₂_same.mpr fun _ _ => rfl)
  rintro c c' rfl
  exact exists_namesake h c.child

/-- Trees that are the same but for redundant parameters are ticked the same. -/
theorem simulates_trimmed (h : t.TrimsTo t') :
    Simulates (build t) (build t') (· = ·) (· = ·)
      fun room p room' p' => room = room' ∧ Namesakes t t' p p' where
  room := by
    rintro room p room' p' ⟨rfl, -⟩
    rfl
  slot := by
    rintro room p room' p' ⟨hroom, hp⟩
    have hnode := hp.node h
    refine ⟨hnode.id_eq.symm, ?_, ?_, (hp.children h).imp fun c c' hc => ?_⟩
    · rw [slot_build, slot_build] at hnode ⊢
      exact hnode.definition?_eq.symm
    · intro d hd
      rw [slot_build] at hd
      rw [slot_build] at hnode ⊢
      exact hnode.agreeOn hd
    · exact ⟨Nat.succ_inj.mp hroom, hc⟩
  shows _ := Store.shows_eq _
  draws _ _ _ _ := rfl

theorem rootsAlike_trimmed (h : t.TrimsTo t') :
    Executor.RootsAlike (· = ·) (· = ·) (build t) (build t') := by
  have hsize : (build t).size = (build t').size := h.nodes.length_eq
  have hroots : Option.Rel (Namesakes t t') (build t).root (build t').root := by
    change Option.Rel _ (t.root.bind (position? t.nodes)) (t'.root.bind (position? t'.nodes))
    have hroot : t'.root = t.root := by rw [h.others]
    rw [hroot]
    cases t.root with
    | none => exact .none
    | some id => exact exists_namesake h id
  rw [Executor.RootsAlike]
  generalize (build t).root = root? at hroots ⊢
  generalize (build t').root = root?' at hroots ⊢
  cases hroots with
  | none => exact .none
  | some hroot =>
    refine .some fun m f g hf => ?_
    exact (simulates_trimmed h).alike_tick ⟨congrArg (· + 1) hsize, hroot⟩ hf

end Index

theorem Tree.TrimsTo.playsAs (h : t.TrimsTo t') : t.PlaysAs t' := by
  rintro e e' he he' rfl rfl hstore hgenerator scene turns
  have hsaved : e.tree.blackboard = e'.tree.blackboard := by rw [h.others]
  exact Executor.like_play he.currentIndex_eq he'.currentIndex_eq (Index.rootsAlike_trimmed h)
    ⟨hsaved, hstore, hgenerator⟩ scene turns

theorem Tree.trimsTo_create (t : Tree) (before after : List Node) (id type : String) :
    TrimsTo { t with nodes := before ++ .create id type :: after }
      { t with nodes := before ++ ⟨id, type, ∅⟩ :: after } where
  nodes := by
    have hsame : ∀ nodes : List Node, List.Forall₂ Node.TrimsTo nodes nodes :=
      fun nodes => List.forall₂_same.mpr fun n _ => .refl n
    exact List.rel_append (hsame before) (.cons (Node.trimsTo_create id type) (hsame after))
  others := rfl

namespace Executor

theorem like_create (hid : t.id = t'.id) (hsaved : t.blackboard = t'.blackboard)
    (seed : Option UInt64) (unseeded : Generator) :
    (create t seed unseeded).Like (· = ·) (· = ·) (create t' seed unseeded) := by
  rw [create, create]
  cases seed with
  | none =>
    rw [Option.elim_none, Option.elim_none]
    exact ⟨hsaved, rfl, rfl⟩
  | some seed =>
    rw [Option.elim_some, Option.elim_some, ofSeed, ofSeed, seededGenerator, seededGenerator, hid]
    exact ⟨hsaved, rfl, rfl⟩

/-- Trees play the same, from the first tick on and later, of which one leaves out redundant parameters.
So does a tree with a node that sets nothing in the place of one that was made with all defaults. -/
theorem play_trimmed :
    (∀ t t' : Tree, t.TrimsTo t' → t.PlaysAs t' ∧ ∀ seed unseeded scene turns,
      List.Forall₂ (Executed.Like (· = ·) (· = ·)) ((create t seed unseeded).play scene turns)
        ((create t' seed unseeded).play scene turns)) ∧
    ∀ (t : Tree) (before after : List Node) (id type : String),
      Tree.PlaysAs { t with nodes := before ++ .create id type :: after }
        { t with nodes := before ++ ⟨id, type, ∅⟩ :: after } := by
  refine ⟨fun t t' h => ⟨h.playsAs, ?_⟩, fun t before after id type => ?_⟩
  · intro seed unseeded scene turns
    have hid : t.id = t'.id := by rw [h.others]
    have hsaved : t.blackboard = t'.blackboard := by rw [h.others]
    exact like_play (currentIndex_create t seed unseeded) (currentIndex_create t' seed unseeded)
      (Index.rootsAlike_trimmed h) (like_create hid hsaved seed unseeded) scene turns
  · exact (t.trimsTo_create before after id type).playsAs

/-- A node that waits leaves out its duration, and a note that its type does not have. -/
theorem play_trimmed_waiting :
    let n := (Node.create "root" "wait").set "note" (.string "later")
    let t : Tree := { Tree.single "wait" [] with nodes := [n] }
    let t' : Tree := Tree.single "wait" []
    let scene : Scene := ⟨.ofEntities [.create "Guard" .zero], ∅⟩
    let turns : List Turn := [⟨"Guard", 0.5, id⟩, ⟨"Guard", 0.5, id⟩]
    t ≠ t' ∧ t.TrimsTo t' ∧
      ((create t none ⟨0⟩).play scene turns).map (·.status) = [.running, .success] ∧
      List.Forall₂ (Executed.Like (· = ·) (· = ·)) ((create t none ⟨0⟩).play scene turns)
        ((create t' none ⟨0⟩).play scene turns) := by
  intro n t t' scene turns
  have hne : t ≠ t' := by decide +kernel
  have hnode : n.TrimsTo ⟨"root", "wait", ∅⟩ :=
    ⟨["duration", "note"], by decide +kernel, by decide +kernel⟩
  have htrims : t.TrimsTo t' := ⟨.cons hnode .nil, rfl⟩
  have hstatuses : ((create t none ⟨0⟩).play scene turns).map (·.status) = [.running, .success] := by
    decide +kernel
  exact ⟨hne, htrims, hstatuses, (play_trimmed.1 t t' htrims).2 none ⟨0⟩ scene turns⟩

end Executor

end BehaviorTree
