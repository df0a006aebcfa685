import BehaviorTree.Record
import BehaviorTree.Proofs.Json.Kept

/-!
# Records read back

Reading a record from an object depends on nothing but what its fields look up, so that it does not
matter in which order they stand or what else does. What is written comes back from a free value.
-/

namespace BehaviorTree

theorem mapM_eq_some_iff {α β : Type} {f : α → Option β} {xs : List α} {ys : List β} :
    xs.mapM f = some ys ↔ xs.map f = ys.map some := by
  induction xs generalizing ys with
  | nil => cases ys <;> simp
  | cons x xs ih =>
    rw [List.mapM_cons, List.map_cons]
    cases ys with
    | nil => simp [Option.bind_eq_some_iff]
    | cons y ys => simp [Option.bind_eq_some_iff, ih]

namespace Fields

variable {names : List String} {members : List (String × Document)}

private theorem lookup_known {name : String} (h : name ∈ names) :
    (members.filter (names.contains ·.1)).lookup name = members.lookup name := by
  induction members with
  | nil => rfl
  | cons e rest ih =>
    by_cases he : name = e.1
    · rw [List.filter_cons_of_pos (by simpa [← he] using h), List.lookup_cons, List.lookup_cons, he,
        beq_self_eq_true]
    · rw [List.lookup_cons, beq_eq_false_iff_ne.mpr he, ← ih, List.filter_cons]
      split
      · rw [List.lookup_cons, beq_eq_false_iff_ne.mpr he]
      · rfl

theorem of?_object (names : List String) (h : (members.map (·.1)).Nodup) :
    ∃ fields, of? names (Document.object members) = some fields ∧
      ∀ name ∈ names, fields.lookup name = members.lookup name := by
  have hknown : ((members.filter (names.contains ·.1)).map (·.1)).Nodup :=
    h.sublist (List.filter_sublist.map _)
  exact ⟨_, if_pos hknown, fun _ => lookup_known⟩

theorem of?_kept (names : List String) {d : Document} (hd : d = .object members)
    (h : (members.map (·.1)).Nodup) :
    ∃ fields, of? names d.kept = some fields ∧
      ∀ name ∈ names, ∀ d, members.lookup name = some d → fields.lookup name = some d.kept := by
  obtain ⟨fields, hfields, hlookup⟩ := of?_object names (Document.nodup_keptMembers members)
  refine ⟨fields, hd ▸ hfields, fun name hname d hd => ?_⟩
  rw [hlookup name hname, Document.lookup_keptMembers h, hd, Option.map_some]

variable {α : Type} {fields : Fields Document} {name : String} {d : Document}
  {read : Document → Option α} {a : α}

theorem required_of_lookup (h : fields.lookup name = some d) (hread : read d = some a) :
    fields.required name read = some a := by
  rw [required, h, Option.bind_some, hread]

theorem optional_of_lookup (h : fields.lookup name = some d) (hread : read d = some a)
    (default : α) : fields.optional name read default = some a := by
  rw [optional, h]
  exact hread

end Fields

namespace Source

variable {α : Type} {read : Document → Option α} {write : α → Document}

theorem mapM_map {β γ : Type} {write : β → γ} {read : γ → Option β} {xs : List β}
    (h : ∀ x ∈ xs, read (write x) = some x) : (xs.map write).mapM read = some xs := by
  rw [mapM_eq_some_iff, List.map_map]
  exact List.map_congr_left h

theorem exists_of_mem_mapM {β γ : Type} {read : β → Option γ} {xs : List β} {ys : List γ}
    (h : xs.mapM read = some ys) {y : γ} (hy : y ∈ ys) : ∃ x ∈ xs, read x = some y := by
  have hmem : some y ∈ xs.map read := mapM_eq_some_iff.mp h ▸ List.mem_map_of_mem hy
  exact List.mem_map.mp hmem

theorem listOf?_kept {xs : List α} (h : ∀ x ∈ xs, read (write x).kept = some x) :
    listOf? read (Document.array (xs.map write)).kept = some xs := by
  rw [Document.kept_array, List.map_map]
  exact mapM_map h

theorem dictOf?_kept {d : Dict α} (h : ∀ e ∈ d.entries, read (write e.2).kept = some e.2) :
    dictOf? read (Document.object (d.entries.map fun e => (e.1, write e.2))).kept = some d := by
  have hread : (d.entries.map fun e => (e.1, (write e.2).kept)).mapM
      (fun e : String × Document => (read e.2).map (e.1, ·)) = some d.entries := by
    apply mapM_map
    intro e he
    rw [h e he]
    rfl
  rw [Document.kept_object,
    Document.keptMembers_of_ascending (Document.ascending_map _ d.ascending), List.map_map]
  change ((d.entries.map fun e => (e.1, (write e.2).kept)).mapM
    (fun e : String × Document => (read e.2).map (e.1, ·))).bind (fun es => some (Dict.ofList es)) = _
  rw [hread, Option.bind_some, Dict.ofList_entries]

@[simp] theorem string?_string (s : String) : string? (Document.string s) = some s := rfl

@[simp] theorem bool?_bool (b : Bool) : bool? (Document.bool b) = some b := rfl

theorem real?_kept {x : Float32} (h : x.isFinite) :
    real? (Document.number (.single x)).kept = some x := by
  rw [Document.kept_single h]
  exact congrArg some (narrow_widen h)

theorem nullable_real?_kept {x : Float32} (h : x.isFinite) :
    nullable real? (Document.number (.single x)).kept = some (some x) := by
  rw [nullable, real?_kept h, Option.map_some, Document.kept_single h, if_neg]
  exact Bool.false_ne_true

end Source

end BehaviorTree
