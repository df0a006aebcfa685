import BehaviorTree.Store
import BehaviorTree.Proofs.Record

/-!
# States read back

A store comes back from the free value that it is written to, unless it has something that a free value
cannot hold.
-/

namespace BehaviorTree

open Document

/-- Whether a memory holds nothing that a free value cannot: all times are finite, and all positions
fit 64 bits, as those of a machine do. -/
structure Memory.Keepable (m : Memory) : Prop where
  currentIndex : m.currentIndex < 2 ^ 64
  shuffledIndices : ∀ order ∈ m.shuffledIndices, ∀ place ∈ order, place < 2 ^ 64
  lastExecutionTime : m.lastExecutionTime.isFinite
  elapsed : m.elapsed.isFinite
  lastAttackTime : ∀ time ∈ m.lastAttackTime, time.isFinite
  waypointIndex : m.waypointIndex < 2 ^ 64
  waitElapsed : m.waitElapsed.isFinite

@[inherit_doc Memory.Keepable]
structure NodeState.Keepable (s : NodeState) : Prop where
  runningTime : s.runningTime.isFinite
  memory : s.memory.Keepable

@[inherit_doc Memory.Keepable]
def Store.Keepable (s : Store) : Prop := ∀ e ∈ s.entries, e.2.Keepable

instance (m : Memory) : Decidable m.Keepable :=
  decidable_of_iff (m.currentIndex < 2 ^ 64 ∧
      (∀ order ∈ m.shuffledIndices, ∀ place ∈ order, place < 2 ^ 64) ∧
      m.lastExecutionTime.isFinite ∧ m.elapsed.isFinite ∧
      (∀ time ∈ m.lastAttackTime, time.isFinite) ∧ m.waypointIndex < 2 ^ 64 ∧
      m.waitElapsed.isFinite)
    ⟨fun ⟨h₁, h₂, h₃, h₄, h₅, h₆, h₇⟩ => ⟨h₁, h₂, h₃, h₄, h₅, h₆, h₇⟩,
      fun ⟨h₁, h₂, h₃, h₄, h₅, h₆, h₇⟩ => ⟨h₁, h₂, h₃, h₄, h₅, h₆, h₇⟩⟩

instance (s : NodeState) : Decidable s.Keepable :=
  decidable_of_iff (s.runningTime.isFinite ∧ s.memory.Keepable)
    ⟨fun ⟨h₁, h₂⟩ => ⟨h₁, h₂⟩, fun ⟨h₁, h₂⟩ => ⟨h₁, h₂⟩⟩

instance (s : Store) : Decidable s.Keepable :=
  inferInstanceAs (Decidable (∀ e ∈ s.entries, e.2.Keepable))

namespace Source

theorem natural?_kept {n : Nat} (h : n < 2 ^ 64) :
    natural? (Document.natural n).kept = some n := by
  have hfits : fitsUnsigned 64 n = true := by
    simp only [fitsUnsigned, Bool.and_eq_true, decide_eq_true_eq]
    exact ⟨Int.natCast_nonneg n, Int.ofNat_lt.mpr h⟩
  have hnatural : natural? (Document.natural n) = some n := if_pos hfits
  rwa [Document.natural, Document.kept_integer (by rw [fits, hfits, Bool.or_true])]

theorem count?_kept (n : UInt32) :
    (below? UInt32.size (Document.natural n.toNat).kept).map UInt32.ofNat = some n := by
  have hlt : n.toNat < 2 ^ 64 := Nat.lt_trans n.toNat_lt (by decide)
  rw [below?, natural?_kept hlt, Option.filter_some, if_pos (by simpa using n.toNat_lt),
    Option.map_some, UInt32.ofNat_toNat]

end Source

theorem Status.read_kept (s : Status) : read s.document.kept = some s := by
  rw [document, kept_string, read]
  exact ofName?_name s

namespace Memory

private theorem places_kept {places : List Nat} (h : ∀ place ∈ places, place < 2 ^ 64) :
    Source.listOf? Source.natural? (Document.array (places.map .natural)).kept = some places := by
  apply Source.listOf?_kept
  intro place hplace
  exact Source.natural?_kept (h place hplace)

private theorem order_kept {order : Option (List Nat)}
    (h : ∀ places ∈ order, ∀ place ∈ places, place < 2 ^ 64) :
    Source.nullable (Source.listOf? Source.natural?)
      (order.elim Document.null fun places => .array (places.map .natural)).kept = some order := by
  cases order with
  | none => rfl
  | some places =>
    have hplaces := places_kept (h places (Option.mem_some_self places))
    rw [Option.elim_some, Source.nullable, hplaces, Option.map_some, kept_array, if_neg]
    exact Bool.false_ne_true

private theorem time_kept {time : Option Float32} (h : ∀ t ∈ time, t.isFinite) :
    Source.nullable Source.real?
      (time.elim Document.null fun t => .number (.single t)).kept = some time := by
  cases time with
  | none => rfl
  | some t =>
    have ht := h t (Option.mem_some_self t)
    exact Source.nullable_real?_kept ht

theorem read_kept {m : Memory} (h : m.Keepable) : read m.document.kept = some m := by
  obtain ⟨fields, hfields, hfield⟩ := Fields.of?_kept
    ["currentIndex", "shuffledIndices", "iteration", "lastExecutionTime", "elapsed",
      "lastAttackTime", "waypointIndex", "waiting", "waitElapsed"] (rfl : m.document = _) (by simp)
  have hiteration : fields.optional "iteration"
      (fun d => (Source.below? UInt32.size d).map UInt32.ofNat) initial.iteration =
        some m.iteration := by
    rw [Fields.optional, hfield "iteration" (by simp) _ rfl]
    exact Source.count?_kept m.iteration
  rw [read, hfields]
  simp only [Option.bind_eq_bind, Option.bind_some]
  rw [Fields.optional_of_lookup (hfield "currentIndex" (by simp) _ rfl)
      (Source.natural?_kept h.currentIndex),
    Fields.optional_of_lookup (hfield "shuffledIndices" (by simp) _ rfl)
      (order_kept h.shuffledIndices),
    hiteration, Fields.optional_of_lookup (hfield "lastExecutionTime" (by simp) _ rfl)
      (Source.real?_kept h.lastExecutionTime),
    Fields.optional_of_lookup (hfield "elapsed" (by simp) _ rfl) (Source.real?_kept h.elapsed),
    Fields.optional_of_lookup (hfield "lastAttackTime" (by simp) _ rfl)
      (time_kept h.lastAttackTime),
    Fields.optional_of_lookup (hfield "waypointIndex" (by simp) _ rfl)
      (Source.natural?_kept h.waypointIndex),
    Fields.optional_of_lookup (hfield "waiting" (by simp) _ rfl) (Source.bool?_bool m.waiting),
    Fields.optional_of_lookup (hfield "waitElapsed" (by simp) _ rfl)
      (Source.real?_kept h.waitElapsed)]
  rfl

end Memory

theorem NodeState.read_kept {s : NodeState} (h : s.Keepable) :
    read s.document.kept = some s := by
  obtain ⟨fields, hfields, hfield⟩ := Fields.of?_kept ["status", "runningTime", "data"]
    (rfl : s.document = _) (by simp)
  rw [read, hfields]
  simp only [Option.bind_eq_bind, Option.bind_some]
  rw [Fields.required_of_lookup (hfield "status" (by simp) _ rfl) s.status.read_kept,
    Fields.required_of_lookup (hfield "runningTime" (by simp) _ rfl)
      (Source.real?_kept h.runningTime),
    Fields.required_of_lookup (hfield "data" (by simp) _ rfl) (Memory.read_kept h.memory)]
  rfl

theorem Store.read_kept {s : Store} (h : s.Keepable) : read s.document.kept = some s :=
  Source.dictOf?_kept fun e he => NodeState.read_kept (h e he)

end BehaviorTree
