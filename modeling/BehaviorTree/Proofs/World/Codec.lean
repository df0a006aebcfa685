import BehaviorTree.World.Basic
import BehaviorTree.Proofs.Record

/-!
# Worlds read back

A world comes back from the free value that it is written to, with an empty log, unless it has something
that a free value cannot hold. Of the entities of one name in a list the last one counts.
-/

namespace BehaviorTree

open Document

structure Vec2.Keepable (a : Vec2) : Prop where
  x : a.x.isFinite
  y : a.y.isFinite

/-- Whether an entity holds nothing that a free value cannot, and no further field has the name of one of
its own. -/
structure Entity.Keepable (e : Entity) : Prop where
  position : e.position.Keepable
  health : e.health.isFinite
  maxHealth : e.maxHealth.isFinite
  sightRange : ∀ range ∈ e.sightRange, range.isFinite
  extra : ∀ name ∈ fieldNames, e.extra.get? name = none

instance Vec2.decidableKeepable (a : Vec2) : Decidable a.Keepable :=
  decidable_of_iff (a.x.isFinite ∧ a.y.isFinite) ⟨fun ⟨h₁, h₂⟩ => ⟨h₁, h₂⟩, fun ⟨h₁, h₂⟩ => ⟨h₁, h₂⟩⟩

instance Entity.decidableKeepable (e : Entity) : Decidable e.Keepable :=
  decidable_of_iff (e.position.Keepable ∧ e.health.isFinite ∧ e.maxHealth.isFinite ∧
      (∀ range ∈ e.sightRange, range.isFinite) ∧
      ∀ name ∈ Entity.fieldNames, e.extra.get? name = none)
    ⟨fun ⟨h₁, h₂, h₃, h₄, h₅⟩ => ⟨h₁, h₂, h₃, h₄, h₅⟩,
      fun ⟨h₁, h₂, h₃, h₄, h₅⟩ => ⟨h₁, h₂, h₃, h₄, h₅⟩⟩

theorem Vec2.read_kept {a : Vec2} (h : a.Keepable) : read a.document.kept = some a := by
  obtain ⟨fields, hfields, hfield⟩ := Fields.of?_kept ["x", "y"] (rfl : a.document = _) (by simp)
  rw [read, hfields]
  simp only [Option.bind_eq_bind, Option.bind_some]
  rw [Fields.required_of_lookup (hfield "x" (by simp) _ rfl) (Source.real?_kept h.x),
    Fields.required_of_lookup (hfield "y" (by simp) _ rfl) (Source.real?_kept h.y)]
  rfl

namespace Entity

variable {e : Entity} {name : String}

def ownMembers (e : Entity) : List (String × Document) :=
  [("name", .string e.name), ("position", e.position.document), ("health", .single e.health),
    ("maxHealth", .single e.maxHealth)] ++
  Document.optionalMember "sightRange" .single e.sightRange

def members (e : Entity) : List (String × Document) :=
  e.ownMembers ++ e.extra.entries.map fun field => (field.1, field.2.document)

theorem document_eq (e : Entity) : e.document = .object e.members := rfl

theorem sublist_ownMembers (e : Entity) : (e.ownMembers.map (·.1)).Sublist fieldNames := by
  have hfour : ["name", "position", "health", "maxHealth"].Sublist fieldNames := by decide
  rw [ownMembers]
  cases e.sightRange with
  | none => exact hfour
  | some range => exact .refl _

theorem nodup_members (h : ∀ name ∈ fieldNames, e.extra.get? name = none) :
    (e.members.map (·.1)).Nodup := by
  rw [members, List.map_append, List.map_map, List.nodup_append]
  refine ⟨e.sublist_ownMembers.nodup (by decide), e.extra.nodup_keys, ?_⟩
  intro name hown name' hextra heq
  obtain ⟨field, hfield, rfl⟩ := List.mem_map.mp hextra
  have hnone := h name (e.sublist_ownMembers.subset hown)
  rw [heq] at hnone
  exact absurd (hnone.symm.trans (Dict.mem_entries_iff.mp hfield)) nofun

theorem lookup_members (h : ∀ name ∈ fieldNames, e.extra.get? name = none) (name : String) :
    e.members.lookup name = if name ∈ fieldNames then e.ownMembers.lookup name
      else (e.extra.get? name).map (·.document) := by
  rw [members, List.lookup_append, Dict.lookup_map, Dict.lookup_entries]
  split
  · rename_i hname
    rw [h name hname, Option.map_none, Option.or_none]
  · rename_i hname
    have hnone : e.ownMembers.lookup name = none := by
      rw [List.lookup_eq_none_iff]
      intro own hown
      have hne : name ≠ own.1 := fun heq =>
        hname (heq ▸ e.sublist_ownMembers.subset (List.mem_map_of_mem hown))
      simpa using hne
    rw [hnone, Option.none_or]

private theorem ofList_others (h : ∀ name ∈ fieldNames, e.extra.get? name = none) :
    Dict.ofList ((Json.ofMembers ∅ e.members).entries.filter
      fun field => !fieldNames.contains field.1) = e.extra := by
  -- The members are sorted by name when they become a value, so only look-ups can be compared.
  apply Dict.ext_get?
  intro name
  rw [Dict.get?_ofList_filter _ fun name => !fieldNames.contains name,
    get?_ofMembers (nodup_members h), lookup_members h]
  by_cases hname : name ∈ fieldNames
  · rw [if_neg (by simp [hname]), h name hname]
  · rw [if_pos (by simp [hname]), if_neg hname, Option.map_map]
    simp only [Function.comp_def, Json.ofDocument_document, Option.map_id']

private theorem others_kept (e : Entity) :
    ((keptMembers e.members).filter fun (name, _) => !fieldNames.contains name).mapM
        (fun (name, d) => (Source.value? d).map (name, ·)) =
      some ((Json.ofMembers ∅ e.members).entries.filter
        fun field => !fieldNames.contains field.1) := by
  rw [keptMembers, List.filter_map]
  apply Source.mapM_map
  intro field _
  have hvalue : Source.value? field.2.document = some field.2 := Json.value?_document field.2
  dsimp only
  rw [hvalue, Option.map_some]

theorem read_kept (h : e.Keepable) : read e.document.kept = some e := by
  obtain ⟨fields, hfields, hfield⟩ := Fields.of?_object fieldNames (nodup_keptMembers e.members)
  have hown : ∀ name ∈ fieldNames, fields.lookup name = (e.ownMembers.lookup name).map kept := by
    intro name hname
    rw [hfield name hname, lookup_keptMembers (nodup_members h.extra), lookup_members h.extra,
      if_pos hname]
  have hsight : fields.optional "sightRange" (Source.nullable Source.real?) none =
      some e.sightRange := by
    rw [Fields.optional, hown "sightRange" (by decide), ownMembers]
    cases hrange : e.sightRange with
    | none => rfl
    | some range => exact Source.nullable_real?_kept (h.sightRange range hrange)
  have hmembers : Source.members? (Document.object (keptMembers e.members)) =
    some (keptMembers e.members) := rfl
  rw [document_eq, kept_object, read, hfields, hmembers]
  simp only [Option.bind_eq_bind, Option.bind_some]
  rw [others_kept e, Option.bind_some,
    Fields.required_of_lookup (hown "name" (by decide)) (Source.string?_string e.name),
    Fields.optional_of_lookup (hown "position" (by decide)) (Vec2.read_kept h.position),
    Fields.optional_of_lookup (hown "health" (by decide)) (Source.real?_kept h.health),
    Fields.optional_of_lookup (hown "maxHealth" (by decide)) (Source.real?_kept h.maxHealth),
    hsight, ofList_others h.extra]
  rfl

theorem extra_of_read {δ : Type} [Source δ] {d : δ} (h : read d = some e) :
    ∀ name ∈ fieldNames, e.extra.get? name = none := by
  intro name hname
  rw [read] at h
  simp only [Option.bind_eq_bind, Option.bind_eq_some_iff] at h
  obtain ⟨members, -, fields, -, others, hothers, _, -, _, -, _, -, _, -, _, -, h⟩ := h
  cases h
  rw [Option.eq_none_iff_forall_not_mem]
  intro v hv
  have hmem := Dict.mem_of_mem_ofList (Dict.mem_entries_iff.mpr hv)
  obtain ⟨⟨name', d'⟩, hmember, hread⟩ := Source.exists_of_mem_mapM hothers hmem
  obtain ⟨v', -, heq⟩ := Option.map_eq_some_iff.mp hread
  cases heq
  simp [hname] at hmember

end Entity

namespace World

variable {w : World} {es : List Entity}

/-- The entities that the data of a world lists. -/
def listed? {δ : Type} [Source δ] (d : δ) : Option (List Entity) :=
  (Fields.of? ["entities"] d).bind fun fields =>
    fields.optional "entities" (Source.listOf? Entity.read) []

theorem read_eq_map {δ : Type} [Source δ] (d : δ) : read d = (listed? d).map ofEntities := by
  rw [read, listed?]
  cases Fields.of? ["entities"] d with
  | none => rfl
  | some fields =>
    simp only [Option.bind_eq_bind, Option.bind_some]
    cases fields.optional "entities" (Source.listOf? Entity.read) [] <;> rfl

section

variable {entities : Dict Entity} (h : ∀ name e, entities.get? name = some e → e.name = name)

include h

theorem map_values_of_names : (entities.values.map fun e => (e.name, e)) = entities.entries := by
  rw [Dict.values, List.map_map]
  conv_rhs => rw [← List.map_id entities.entries]
  apply List.map_congr_left
  intro field hfield
  exact Prod.ext (h field.1 field.2 (Dict.mem_entries_iff.mp hfield)) rfl

theorem ofEntities_values : ofEntities entities.values = ⟨entities, []⟩ := by
  have hfoldl : ∀ (es : List Entity) (w : World), es.foldl insert w =
      ⟨(es.map fun e => (e.name, e)).foldl (fun d e => d.insert e.1 e.2) w.entities, w.events⟩ := by
    intro es
    induction es with
    | nil => exact fun _ => rfl
    | cons e rest ih => exact fun w => ih (w.insert e)
  rw [ofEntities, hfoldl, map_values_of_names h]
  exact congrArg (World.mk · []) (Dict.ofList_entries entities)

end

theorem pairwise_name_list (h : ∀ name e, w.get? name = some e → e.name = name) :
    (w.list.map (·.name)).Pairwise (· < ·) := by
  have hascending := w.entities.ascending
  rw [← map_values_of_names h, Ascending, List.pairwise_map] at hascending
  exact List.pairwise_map.mpr hascending

/-- A world comes back from its value, with an empty log. -/
theorem read_kept (hnames : ∀ name e, w.get? name = some e → e.name = name)
    (h : ∀ e ∈ w.list, e.Keepable) : read w.document.kept = some ⟨w.entities, []⟩ := by
  obtain ⟨fields, hfields, hfield⟩ := Fields.of?_kept ["entities"] (rfl : w.document = _) (by simp)
  rw [read, hfields]
  simp only [Option.bind_eq_bind, Option.bind_some]
  rw [Fields.optional_of_lookup (hfield "entities" (by simp) _ rfl)
    (Source.listOf?_kept fun e he => Entity.read_kept (h e he)), Option.bind_some]
  exact congrArg some (ofEntities_values hnames)

end World

end BehaviorTree
