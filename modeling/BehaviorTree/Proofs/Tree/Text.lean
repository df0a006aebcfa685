import BehaviorTree.Proofs.Json.Text
import BehaviorTree.Proofs.Json.Depth
import BehaviorTree.Proofs.Tree.Codec

/-!
# Trees read back from texts

A tree comes back from its text, in both layouts, unless it is nested deeper than texts may be. What is
read from a text is not: records are written with no more nesting than they were read with, up to the
four levels that a node with parameters takes.
-/

namespace BehaviorTree

open Document

section Reading

theorem Blackboard.canonical_document (b : Blackboard) : b.document.canonical :=
  (Json.object b).canonical

theorem Blackboard.read_document (b : Blackboard) : read b.document = some b := by
  have hread := b.read_kept
  rwa [kept_of_canonical b.canonical_document] at hread

theorem Source.listOf?_map {α : Type} {read : Document → Option α} {write : α → Document}
    {xs : List α} (h : ∀ x ∈ xs, read (write x) = some x) :
    listOf? read (Document.array (xs.map write)) = some xs :=
  mapM_map h

theorem Node.read_document (n : Node) : read n.document = some n := by
  apply read_object
  · simp
  · rfl
  · rfl
  · rfl
  · exact Blackboard.read_document n.data

theorem Connection.read_document (c : Connection) : read c.document = some c := by
  apply read_object
  · simp
  · rfl
  · rfl
  · rfl
  · exact Source.int32?_integer c.order

theorem Tree.read_document (t : Tree) : read t.document = some t := by
  have hroot : Source.nullable Source.string? (t.root.elim Document.null .string) = some t.root := by
    cases t.root with
    | none => rfl
    | some root => rfl
  have hnodes := Source.listOf?_map fun n (_ : n ∈ t.nodes) => n.read_document
  have hconnections := Source.listOf?_map fun c (_ : c ∈ t.connections) => c.read_document
  refine read_object ?_ rfl rfl rfl hroot rfl hnodes rfl hconnections rfl t.blackboard.read_document
  simp

end Reading

section Legible

theorem Document.legibleItems_iff {items : List Document} :
    legibleItems items ↔ ∀ d ∈ items, d.legible := by
  induction items with
  | nil => simp [legibleItems]
  | cons d rest ih => simp [legibleItems, ih]

theorem Blackboard.legible_document (b : Blackboard) : b.document.legible :=
  legible_of_canonical b.canonical_document

theorem Node.legible_document (n : Node) : n.document.legible := by
  simp [document, legible, legibleMembers, Blackboard.legible_document]

theorem Connection.legible_document (c : Connection) : c.document.legible := by
  simp [document, legible, legibleMembers, canonicalNumber, Source.fits_int32]

theorem Tree.legible_document (t : Tree) : t.document.legible := by
  have hroot : (t.root.elim .null .string : Document).legible := by
    cases t.root with
    | none => rfl
    | some root => rfl
  have hnodes : legibleItems (t.nodes.map Node.document) := by
    simp [legibleItems_iff, Node.legible_document]
  have hconnections : legibleItems (t.connections.map Connection.document) := by
    simp [legibleItems_iff, Connection.legible_document]
  simp [document, legible, legibleMembers, hroot, hnodes, hconnections,
    t.blackboard.legible_document]

end Legible

section Depth

variable {d : Document}

theorem Fields.depth_lookup {names : List String} {fields : Fields Document}
    (h : of? names d = some fields) {name : String} {field : Document}
    (hfield : fields.lookup name = some field) : field.depth < d.depth := by
  have hmem : (name, field) ∈ fields := by
    obtain ⟨before, after, rfl, -⟩ := List.lookup_eq_some_iff.mp hfield
    simp
  cases d with
  | object members =>
    simp only [of?, Source.members?] at h
    split at h
    · cases h
      have hmember : field.depth ≤ depthMembers members :=
        depthMembers_le_iff.mp (Nat.le_refl _) _ (List.mem_of_mem_filter hmem)
      rw [depth]
      omega
    · cases h
  | array items =>
    simp only [of?, Source.members?, Source.positions?] at h
    split at h
    · cases h
      have hitem : field.depth ≤ depthItems items :=
        depthItems_le_iff.mp (Nat.le_refl _) _ (List.of_mem_zip hmem).2
      rw [depth]
      omega
    · cases h
  | _ => cases h

namespace Source

variable {α : Type} {levels : Nat} {read : Document → Option α} {write : α → Document}

/-- What is read is written with no more nesting than it was read with, or with no more than some
levels. -/
def NestsWithin (levels : Nat) (read : Document → Option α) (write : α → Document) : Prop :=
  ∀ d a, read d = some a → (write a).depth ≤ max levels d.depth

theorem NestsWithin.listOf? (h : NestsWithin levels read write) :
    NestsWithin (levels + 1) (listOf? read) fun xs => .array (xs.map write) := by
  intro d xs hxs
  rw [Source.listOf?, Option.bind_eq_some_iff] at hxs
  obtain ⟨items, hitems, hxs⟩ := hxs
  have hdepth : d.depth = 1 + depthItems items := by
    cases d with
    | array items' =>
      cases hitems
      rfl
    | _ => cases hitems
  have hbound : depthItems (xs.map write) ≤ max levels (depthItems items) := by
    rw [depthItems_le_iff]
    intro item hitem
    obtain ⟨x, hx, rfl⟩ := List.mem_map.mp hitem
    obtain ⟨item, hitem, hread⟩ := exists_of_mem_mapM hxs hx
    have hitem' := depthItems_le_iff.mp (Nat.le_refl _) item hitem
    have hwrite := h item x hread
    omega
  rw [depth, hdepth]
  omega

theorem NestsWithin.optional (h : NestsWithin levels read write) {default : α}
    (hdefault : (write default).depth ≤ levels) {names : List String} {fields : Fields Document}
    (hfields : Fields.of? names d = some fields) {name : String} {a : α}
    (ha : fields.optional name read default = some a) :
    (write a).depth + 1 ≤ max (levels + 1) d.depth := by
  rw [Fields.optional] at ha
  split at ha
  · rename_i field hfield
    have hnested := Fields.depth_lookup hfields hfield
    have hwrite := h field a ha
    omega
  · cases ha
    omega

end Source

open Source

theorem Blackboard.nestsWithin : NestsWithin 1 read document := by
  intro d b hb
  simp only [read, dictOf?, Option.bind_eq_bind, Option.bind_eq_some_iff] at hb
  obtain ⟨members, hmembers, entries, hentries, hb⟩ := hb
  cases hb
  have hdepth : d.depth = 1 + depthMembers members := by
    cases d with
    | object members' =>
      cases hmembers
      rfl
    | _ => cases hmembers
  have hbound : depthMembers
      ((Dict.ofList entries).entries.map fun e => (e.1, e.2.document)) ≤ depthMembers members := by
    rw [depthMembers_le_iff]
    intro member hmember
    obtain ⟨e, he, rfl⟩ := List.mem_map.mp hmember
    obtain ⟨⟨name, v⟩, hv, hread⟩ := exists_of_mem_mapM hentries (Dict.mem_of_mem_ofList he)
    obtain ⟨w, hw, rfl⟩ := Option.map_eq_some_iff.mp hread
    change v.value? = some w at hw
    rw [Document.value?, Option.ite_none_right_eq_some, Option.some.injEq] at hw
    obtain ⟨-, rfl⟩ := hw
    have hmember := depthMembers_le_iff.mp (Nat.le_refl _) (name, v) hv
    exact Nat.le_trans (depth_kept v) hmember
  have hwritten : (document (Dict.ofList entries)).depth =
      1 + depthMembers ((Dict.ofList entries).entries.map fun e => (e.1, e.2.document)) := rfl
  omega

theorem Node.nestsWithin : NestsWithin 2 read document := by
  intro d n hn
  simp only [read, Option.bind_eq_bind, Option.bind_eq_some_iff] at hn
  obtain ⟨fields, hfields, id, -, type, -, data, hdata, hn⟩ := hn
  cases hn
  have hbound := Blackboard.nestsWithin.optional (by decide) hfields hdata
  simp only [document, depth, depthMembers]
  omega

theorem Connection.nestsWithin : NestsWithin 1 read document := by
  intro d c _
  simp [document, depth, depthMembers]

theorem Tree.nestsWithin : NestsWithin 4 read document := by
  intro d t ht
  simp only [read, Option.bind_eq_bind, Option.bind_eq_some_iff] at ht
  obtain ⟨fields, hfields, id, -, name, -, root, -, nodes, hnodes, connections, hconnections,
    blackboard, hblackboard, ht⟩ := ht
  cases ht
  have hroot : (root.elim Document.null .string).depth = 0 := by cases root <;> rfl
  have hnodes := Node.nestsWithin.listOf?.optional (by decide) hfields hnodes
  have hconnections := Connection.nestsWithin.listOf?.optional (by decide) hfields hconnections
  have hblackboard := Blackboard.nestsWithin.optional (by decide) hfields hblackboard
  simp only [document, depth, depthMembers] at hnodes hconnections hblackboard ⊢
  omega

end Depth

namespace Tree

variable {t : Tree}

theorem ofText?_document {codec : NumberCodec} (hcodec : codec.Lossless) {spacing : Json.Spacing}
    (hblank : spacing.Blank) (h : t.document.depth ≤ Json.maxDepth) :
    ofText? codec (t.document.toText codec spacing) = some t := by
  rw [ofText?, Document.ofText?_toText hcodec hblank t.legible_document h, Option.bind_some,
    t.read_document]

theorem depth_of_ofText? {codec : NumberCodec} {text : String} (h : ofText? codec text = some t) :
    t.document.depth ≤ Json.maxDepth := by
  rw [ofText?, Option.bind_eq_some_iff] at h
  obtain ⟨d, hd, ht⟩ := h
  calc t.document.depth
    _ ≤ max 4 d.depth := nestsWithin d t ht
    _ ≤ Json.maxDepth := max_le (by decide) (Document.depth_ofText? hd)

/-- Where every number comes back from its text, so does a tree that is not nested too deep from both
of its texts; and a tree that was read from some text is not nested too deep. -/
theorem texts_lossless {codec : NumberCodec} (hcodec : codec.Lossless) (t : Tree) :
    (t.document.depth ≤ 127 →
      ofText? codec (t.toText codec) = some t ∧ ofText? codec (t.toPrettyText codec) = some t) ∧
    ∀ text, ofText? codec text = some t → t.document.depth ≤ 127 := by
  refine ⟨fun h => ?_, fun text h => ?_⟩
  · exact ⟨ofText?_document hcodec Json.Spacing.blank_compact h,
      ofText?_document hcodec Json.Spacing.blank_pretty h⟩
  · exact depth_of_ofText? h

theorem texts_lossless_quoted :
    let codec := NumberCodec.nearest
    let node := (Node.create "say" "log").set "message" (.string "\"a\\b\"\n\t\x07é𝄞")
    let t : Tree := { ((create "t" "\"").addNode node).connectOrdered "say" "say" 3 with
      blackboard := (∅ : Blackboard).insert "x" (.array [.array [.double 0.1], .null]) }
    codec.Lossless ∧ t.document.depth = 4 ∧ ofText? codec (t.toText codec) = some t ∧
      ofText? codec (t.toPrettyText codec) = some t ∧
        ∃ text, ofText? codec text = some t ∧ t.document.depth ≤ 127 := by
  intro codec node t
  have hcodec : codec.Lossless := NumberCodec.lossless_nearest
  have hdepth : t.document.depth = 4 := by decide +kernel
  obtain ⟨hcompact, hpretty⟩ := (texts_lossless hcodec t).1 (by omega)
  have hback := (texts_lossless hcodec t).2 (t.toText codec) hcompact
  exact ⟨hcodec, hdepth, hcompact, hpretty, t.toText codec, hcompact, hback⟩

end Tree

end BehaviorTree
