/-!
# Dictionaries

Finite maps from strings, kept as the list of their entries in strictly increasing key order
(by code points). A dictionary is therefore determined by its look-ups, and walking over it
meets the keys in sorted order.
-/

namespace BehaviorTree

/-- Entries whose keys strictly increase. -/
abbrev Ascending {α : Type _} (entries : List (String × α)) : Prop :=
  entries.Pairwise fun a b => a.1 < b.1

/-- A finite map from strings. -/
structure Dict (α : Type _) where
  /-- The entries, in key order. -/
  entries : List (String × α)
  ascending : Ascending entries
deriving DecidableEq

namespace Dict

variable {α : Type _}

/-- Puts an entry into its place, over any entry of the same key. -/
def place (k : String) (v : α) : List (String × α) → List (String × α)
  | [] => [(k, v)]
  | e :: rest =>
    if k < e.1 then (k, v) :: e :: rest
    else if k = e.1 then (k, v) :: rest
    else e :: place k v rest

theorem mem_place {k : String} {v : α} {entries : List (String × α)} {e : String × α}
    (h : e ∈ place k v entries) : e = (k, v) ∨ e ∈ entries := by
  induction entries with
  | nil => simpa [place] using h
  | cons a rest ih =>
    simp only [place] at h
    split at h
    · simpa using h
    · split at h
      · rcases List.mem_cons.1 h with h | h
        · exact .inl h
        · exact .inr (List.mem_cons_of_mem _ h)
      · rcases List.mem_cons.1 h with h | h
        · exact .inr (h ▸ List.mem_cons_self)
        · rcases ih h with h | h
          · exact .inl h
          · exact .inr (List.mem_cons_of_mem _ h)

private theorem lt_of_not_lt_of_ne {a b : String} (h : ¬ a < b) (hne : a ≠ b) : b < a := by
  apply Decidable.byContradiction
  intro h'
  exact hne (String.le_antisymm (String.not_lt.1 h') (String.not_lt.1 h))

theorem ascending_place {k : String} {v : α} {entries : List (String × α)}
    (h : Ascending entries) : Ascending (place k v entries) := by
  induction entries with
  | nil => simp [place]
  | cons a rest ih =>
    obtain ⟨hhead, htail⟩ := List.pairwise_cons.1 h
    simp only [place]
    split
    · rename_i hlt
      refine List.pairwise_cons.2 ⟨?_, h⟩
      intro e he
      rcases List.mem_cons.1 he with rfl | he
      · exact hlt
      · exact String.lt_trans hlt (hhead e he)
    · rename_i hnlt
      split
      · rename_i heq
        exact List.pairwise_cons.2 ⟨fun e he => by simpa [heq] using hhead e he, htail⟩
      · rename_i hne
        refine List.pairwise_cons.2 ⟨?_, ih htail⟩
        intro e he
        rcases mem_place he with rfl | he
        · exact lt_of_not_lt_of_ne hnlt hne
        · exact hhead e he

def empty : Dict α := ⟨[], .nil⟩

instance : EmptyCollection (Dict α) := ⟨empty⟩
instance : Inhabited (Dict α) := ⟨empty⟩

def get? (d : Dict α) (k : String) : Option α :=
  (d.entries.find? (·.1 == k)).map (·.2)

def contains (d : Dict α) (k : String) : Bool := (d.get? k).isSome

/-- Gives a key a value, in place of the one it may have. -/
def insert (d : Dict α) (k : String) (v : α) : Dict α :=
  ⟨place k v d.entries, ascending_place d.ascending⟩

def erase (d : Dict α) (k : String) : Dict α :=
  ⟨d.entries.filter (·.1 ≠ k), d.ascending.filter _⟩

/-- Changes the value of a key that has one. -/
def modify (d : Dict α) (k : String) (f : α → α) : Dict α :=
  match d.get? k with
  | some v => d.insert k (f v)
  | none => d

/-- The dictionary of a list of entries, in which later entries win over earlier ones. -/
def ofList (entries : List (String × α)) : Dict α :=
  entries.foldl (fun d e => d.insert e.1 e.2) ∅

/-- The keys in increasing order. -/
def keys (d : Dict α) : List String := d.entries.map (·.1)

def values (d : Dict α) : List α := d.entries.map (·.2)

def size (d : Dict α) : Nat := d.entries.length

def isEmpty (d : Dict α) : Bool := d.entries.isEmpty

/-- Takes over the entries of another dictionary whose keys are missing here. -/
def mergeMissing (d other : Dict α) : Dict α :=
  other.entries.foldl (fun d e => if d.contains e.1 then d else d.insert e.1 e.2) d

@[simp] theorem entries_empty : (∅ : Dict α).entries = [] := rfl

@[simp] theorem get?_empty (k : String) : (∅ : Dict α).get? k = none := rfl

@[simp] theorem get?_insert_self (d : Dict α) (k : String) (v : α) :
    (d.insert k v).get? k = some v := by
  obtain ⟨entries, _⟩ := d
  simp only [get?, insert]
  induction entries with
  | nil => simp [place]
  | cons e rest ih =>
    simp only [place]
    split
    · simp
    · split
      · simp
      · rename_i hne
        have : (e.1 == k) = false := by simpa using fun h => hne h.symm
        simp only [List.find?_cons, this]
        exact ih (List.pairwise_cons.1 ‹_›).2

theorem get?_insert_of_ne (d : Dict α) {k k' : String} (v : α) (h : k' ≠ k) :
    (d.insert k v).get? k' = d.get? k' := by
  obtain ⟨entries, _⟩ := d
  simp only [get?, insert]
  have hk : (k == k') = false := by simpa using fun h' => h h'.symm
  induction entries with
  | nil => simp [place, hk]
  | cons e rest ih =>
    have := ih (List.pairwise_cons.1 ‹_›).2
    simp only [place]
    split
    · simp only [List.find?_cons, hk]
    · split
      · rename_i heq
        simp only [List.find?_cons, ← heq, hk]
      · simp only [List.find?_cons]
        split
        · rfl
        · exact this

theorem get?_insert (d : Dict α) (k k' : String) (v : α) :
    (d.insert k v).get? k' = if k' = k then some v else d.get? k' := by
  split
  · rename_i h; rw [h, get?_insert_self]
  · rename_i h; exact get?_insert_of_ne d v h

theorem get?_erase (d : Dict α) (k k' : String) :
    (d.erase k).get? k' = if k' = k then none else d.get? k' := by
  obtain ⟨entries, _⟩ := d
  simp only [get?, erase]
  induction entries with
  | nil => simp
  | cons e rest ih =>
    have := ih (List.pairwise_cons.1 ‹_›).2
    by_cases he : e.1 = k <;> by_cases hk : e.1 = k' <;> grind

end Dict

end BehaviorTree
