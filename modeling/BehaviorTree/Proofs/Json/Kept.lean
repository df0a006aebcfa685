import BehaviorTree.Json.Value
import BehaviorTree.Proofs.Dict
import BehaviorTree.Proofs.Precision

/-!
# What free values keep

A document that is turned into a free value keeps its data: the members of an object stay under their
names, though not in their places, and numbers stay what they are unless they are not finite or do not
fit 64 bits. Canonical documents stay as they are.
-/

namespace BehaviorTree

namespace Document

/-- What a free value keeps of a document. -/
def kept (d : Document) : Document := (Json.ofDocument d).document

def keptMembers (members : List (String × Document)) : List (String × Document) :=
  (Json.ofMembers ∅ members).entries.map fun e => (e.1, e.2.document)

@[simp] theorem kept_string (s : String) : (string s).kept = string s := rfl

@[simp] theorem kept_object (members : List (String × Document)) :
    (object members).kept = object (keptMembers members) := rfl

private theorem ofItems_eq (items : List Document) :
    Json.ofItems items = items.map Json.ofDocument := by
  induction items with
  | nil => rfl
  | cons d rest ih => rw [Json.ofItems, ih, List.map_cons]

@[simp] theorem kept_array (items : List Document) :
    (array items).kept = array (items.map kept) := by
  rw [kept, Json.ofDocument, ofItems_eq]
  change array ((items.map Json.ofDocument).map (·.document)) = _
  rw [List.map_map]
  rfl

theorem kept_integer {n : Int} (h : fits 64 n) :
    (number (.integer n)).kept = number (.integer n) := by
  rw [kept, Json.ofDocument, Json.ofNumber, Json.integer, dif_pos h]

theorem kept_double {x : Float} (h : x.isFinite) :
    (number (.double x)).kept = number (.double x) := by
  rw [kept, Json.ofDocument, Json.ofNumber, Json.double, dif_pos h]

theorem kept_single {x : Float32} (h : x.isFinite) :
    (number (.single x)).kept = number (.double (widen x)) := by
  rw [kept, Json.ofDocument, Json.ofNumber, Json.single, Json.double, dif_pos (isFinite_widen h)]

private theorem ofMembers_eq (before : Dict Json) (members : List (String × Document)) :
    Json.ofMembers before members =
      (members.map fun e => (e.1, Json.ofDocument e.2)).foldl (fun d e => d.insert e.1 e.2)
        before := by
  induction members generalizing before with
  | nil => rfl
  | cons e rest ih => rw [Json.ofMembers, ih, List.map_cons, List.foldl_cons]

theorem nodup_keptMembers (members : List (String × Document)) :
    ((keptMembers members).map (·.1)).Nodup := by
  rw [keptMembers, List.map_map]
  exact Dict.nodup_keys _

theorem get?_ofMembers {members : List (String × Document)} (h : (members.map (·.1)).Nodup)
    (name : String) :
    (Json.ofMembers ∅ members).get? name = (members.lookup name).map Json.ofDocument := by
  have hnames : ((members.map fun e => (e.1, Json.ofDocument e.2)).map (·.1)).Nodup := by
    rw [List.map_map]
    exact h
  rw [ofMembers_eq, ← Dict.ofList, Dict.get?_ofList hnames, Dict.lookup_map]

theorem lookup_keptMembers {members : List (String × Document)}
    (h : (members.map (·.1)).Nodup) (name : String) :
    (keptMembers members).lookup name = (members.lookup name).map kept := by
  rw [keptMembers, Dict.lookup_map, Dict.lookup_entries, get?_ofMembers h, Option.map_map]
  rfl

theorem keptMembers_of_ascending {members : List (String × Document)} (h : Ascending members) :
    keptMembers members = members.map fun e => (e.1, e.2.kept) := by
  rw [keptMembers, ofMembers_eq, ← Dict.ofList, Dict.entries_ofList (ascending_map _ h),
    List.map_map]
  rfl

mutual

/-- Canonical documents stay as they are. -/
theorem kept_of_canonical : ∀ {d : Document}, d.canonical → d.kept = d
  | .null, _ | .bool _, _ | .string _, _ => rfl
  | .number (.integer _), h => kept_integer h
  | .number (.double _), h => kept_double h
  | .array items, h => by rw [kept_array, map_kept_of_canonicalItems h]
  | .object members, h => by
    simp only [canonical, Bool.and_eq_true, decide_eq_true_eq] at h
    rw [kept_object, keptMembers_of_ascending h.1, map_kept_of_canonicalMembers h.2]

theorem map_kept_of_canonicalItems : ∀ {items : List Document}, canonicalItems items →
    items.map kept = items
  | [], _ => rfl
  | d :: rest, h => by
    simp only [canonicalItems, Bool.and_eq_true] at h
    rw [List.map_cons, kept_of_canonical h.1, map_kept_of_canonicalItems h.2]

theorem map_kept_of_canonicalMembers : ∀ {members : List (String × Document)},
    canonicalMembers members → (members.map fun e => (e.1, e.2.kept)) = members
  | [], _ => rfl
  | (name, d) :: rest, h => by
    simp only [canonicalMembers, Bool.and_eq_true] at h
    rw [List.map_cons, kept_of_canonical h.1, map_kept_of_canonicalMembers h.2]

end

mutual

theorem readable_of_canonical : ∀ {d : Document}, d.canonical → d.readable
  | .null, _ | .bool _, _ | .number _, _ | .string _, _ => rfl
  | .array _, h => readableItems_of_canonicalItems h
  | .object members, h => by
    simp only [canonical, Bool.and_eq_true] at h
    exact readableMembers_of_canonicalMembers h.2

theorem readableItems_of_canonicalItems : ∀ {items : List Document}, canonicalItems items →
    readableItems items
  | [], _ => rfl
  | d :: rest, h => by
    simp only [canonicalItems, Bool.and_eq_true] at h
    rw [readableItems, readable_of_canonical h.1, readableItems_of_canonicalItems h.2, Bool.and_self]

theorem readableMembers_of_canonicalMembers : ∀ {members : List (String × Document)},
    canonicalMembers members → readableMembers members
  | [], _ => rfl
  | (_, d) :: rest, h => by
    simp only [canonicalMembers, Bool.and_eq_true] at h
    rw [readableMembers, readable_of_canonical h.1, readableMembers_of_canonicalMembers h.2,
      Bool.and_self]

end

end Document

theorem Json.ofDocument_document (v : Json) : ofDocument v.document = v := by
  obtain ⟨d, hd⟩ := v
  rw [Json.mk.injEq]
  exact Document.kept_of_canonical hd

theorem Json.value?_document (v : Json) : v.document.value? = some v := by
  rw [Document.value?, if_pos (Document.readable_of_canonical v.canonical), ofDocument_document]

end BehaviorTree
