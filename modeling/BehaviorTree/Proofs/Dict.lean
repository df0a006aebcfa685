import BehaviorTree.Dict
import Mathlib.Data.List.Sort

/-!
# Dictionaries of lists

The dictionary of a list in which no key occurs twice looks up what the list does, and that of a list
in key order has the entries of the list.
-/

namespace BehaviorTree.Dict

variable {α : Type} {k : String} {v : α}

private theorem place_last {entries : List (String × α)} (h : ∀ e ∈ entries, e.1 < k) :
    place k v entries = entries ++ [(k, v)] := by
  induction entries with
  | nil => rfl
  | cons e rest ih =>
    have hlt := h e List.mem_cons_self
    rw [place, if_neg (String.lt_asymm hlt), if_neg (String.ne_of_lt hlt).symm,
      ih fun e he => h e (List.mem_cons_of_mem _ he)]
    rfl

private theorem entries_foldl_insert {entries : List (String × α)} {d : Dict α}
    (h : Ascending (d.entries ++ entries)) :
    (entries.foldl (fun d e => d.insert e.1 e.2) d).entries = d.entries ++ entries := by
  induction entries generalizing d with
  | nil => simp
  | cons e rest ih =>
    have hlast : (d.insert e.1 e.2).entries = d.entries ++ [e] := by
      apply place_last
      intro a ha
      exact (List.pairwise_append.mp h).2.2 a ha e List.mem_cons_self
    rw [List.foldl_cons, ih (by rw [hlast, List.append_assoc]; exact h), hlast, List.append_assoc]
    rfl

theorem entries_ofList {entries : List (String × α)} (h : Ascending entries) :
    (ofList entries).entries = entries :=
  entries_foldl_insert h

theorem ofList_entries (d : Dict α) : ofList d.entries = d := by
  have h := entries_ofList d.ascending
  cases hd : ofList d.entries
  rw [hd] at h
  cases d
  simp_all

theorem lookup_entries (d : Dict α) (k : String) : d.entries.lookup k = d.get? k := by
  rw [get?]
  induction d.entries with
  | nil => rfl
  | cons e rest ih =>
    rw [List.lookup_cons, List.find?_cons]
    by_cases he : e.1 = k
    · simp [he]
    · have hne : (k == e.1) = false := beq_eq_false_iff_ne.mpr (Ne.symm he)
      have hne' : (e.1 == k) = false := beq_eq_false_iff_ne.mpr he
      rw [hne, hne', ih]

theorem lookup_map {β : Type} (f : α → β) (entries : List (String × α)) (k : String) :
    (entries.map fun e => (e.1, f e.2)).lookup k = (entries.lookup k).map f := by
  induction entries with
  | nil => rfl
  | cons e rest ih =>
    rw [List.map_cons, List.lookup_cons, List.lookup_cons, ih]
    split <;> rfl

private theorem get?_foldl_insert {entries : List (String × α)} {d : Dict α}
    (h : (entries.map (·.1)).Nodup) (k : String) :
    (entries.foldl (fun d e => d.insert e.1 e.2) d).get? k =
      (entries.lookup k).or (d.get? k) := by
  induction entries generalizing d with
  | nil => rfl
  | cons e rest ih =>
    rw [List.map_cons, List.nodup_cons] at h
    rw [List.foldl_cons, ih h.2, get?_insert, List.lookup_cons]
    by_cases hk : k = e.1
    · have habsent : rest.lookup k = none := by
        rw [List.lookup_eq_none_iff]
        intro a ha
        have hne : a.1 ≠ e.1 := fun heq => h.1 (heq ▸ List.mem_map_of_mem ha)
        simpa [hk] using hne.symm
      rw [habsent, if_pos hk, hk, beq_self_eq_true]
      rfl
    · rw [if_neg hk, beq_eq_false_iff_ne.mpr hk]

theorem get?_ofList {entries : List (String × α)} (h : (entries.map (·.1)).Nodup) (k : String) :
    (ofList entries).get? k = entries.lookup k := by
  rw [ofList, get?_foldl_insert h, get?_empty, Option.or_none]

private theorem mem_foldl_insert {entries : List (String × α)} {d : Dict α} {e : String × α}
    (h : e ∈ (entries.foldl (fun d e => d.insert e.1 e.2) d).entries) :
    e ∈ d.entries ∨ e ∈ entries := by
  induction entries generalizing d with
  | nil => exact .inl h
  | cons a rest ih =>
    rcases ih h with h | h
    · rcases mem_place h with rfl | h
      · exact .inr List.mem_cons_self
      · exact .inl h
    · exact .inr (List.mem_cons_of_mem _ h)

theorem mem_of_mem_ofList {entries : List (String × α)} {e : String × α}
    (h : e ∈ (ofList entries).entries) : e ∈ entries :=
  (mem_foldl_insert h).resolve_left List.not_mem_nil

theorem get?_foldl_erase (ks : List String) (d : Dict α) (k : String) :
    (ks.foldl erase d).get? k = if k ∈ ks then none else d.get? k := by
  induction ks generalizing d with
  | nil => rfl
  | cons k' rest ih =>
    rw [List.foldl_cons, ih, get?_erase]
    by_cases hrest : k ∈ rest
    · rw [if_pos hrest, if_pos (List.mem_cons_of_mem k' hrest)]
    · have hmem : k ∈ k' :: rest ↔ k = k' := by simp [hrest]
      simp only [hmem, hrest, if_false]

theorem get?_modify (d : Dict α) (k k' : String) (f : α → α) :
    (d.modify k f).get? k' = if k' = k then (d.get? k).map f else d.get? k' := by
  rw [modify]
  cases hk : d.get? k with
  | some v => rw [get?_insert, Option.map_some]
  | none =>
    by_cases h : k' = k
    · rw [if_pos h, h, hk, Option.map_none]
    · rw [if_neg h]

private theorem get?_foldl_missing (entries : List (String × α)) (d : Dict α) (k : String) :
    (entries.foldl (fun d e => if d.contains e.1 then d else d.insert e.1 e.2) d).get? k =
      (d.get? k).or (entries.lookup k) := by
  induction entries generalizing d with
  | nil => simp
  | cons e rest ih =>
    rw [List.foldl_cons, ih, List.lookup_cons]
    by_cases hk : k = e.1
    · rw [hk, beq_self_eq_true, contains]
      cases he : d.get? e.1 with
      | none => simp
      | some v => simp [he]
    · rw [beq_eq_false_iff_ne.mpr hk]
      split
      · rfl
      · rw [get?_insert_of_ne d e.2 hk]

theorem get?_mergeMissing (d other : Dict α) (k : String) :
    (d.mergeMissing other).get? k = (d.get? k).or (other.get? k) := by
  rw [mergeMissing, get?_foldl_missing, lookup_entries]

theorem mergeMissing_eq_self {d other : Dict α}
    (h : ∀ k, (other.get? k).isSome → (d.get? k).isSome) : d.mergeMissing other = d := by
  have hkeys : ∀ e ∈ other.entries, d.contains e.1 := by
    intro e he
    apply h
    rw [get?, Option.isSome_map, List.find?_isSome]
    exact ⟨e, he, beq_self_eq_true e.1⟩
  rw [mergeMissing]
  generalize other.entries = entries at hkeys ⊢
  induction entries with
  | nil => rfl
  | cons e rest ih =>
    rw [List.foldl_cons, if_pos (hkeys e List.mem_cons_self)]
    exact ih fun e he => hkeys e (List.mem_cons_of_mem _ he)

theorem nodup_keys (d : Dict α) : d.keys.Nodup := by
  apply List.pairwise_map.mpr
  exact d.ascending.imp fun h => String.ne_of_lt h

private theorem find?_of_mem {entries : List (String × α)} (hascending : Ascending entries)
    (h : (k, v) ∈ entries) : entries.find? (·.1 == k) = some (k, v) := by
  induction entries with
  | nil => exact absurd h List.not_mem_nil
  | cons e rest ih =>
    obtain ⟨hfirst, hrest⟩ := List.pairwise_cons.mp hascending
    rcases List.mem_cons.mp h with rfl | h
    · exact List.find?_cons_of_pos (beq_self_eq_true k)
    · have hne : (e.1 == k) = false := beq_eq_false_iff_ne.mpr (String.ne_of_lt (hfirst _ h))
      rw [List.find?_cons, hne]
      exact ih hrest h

theorem mem_entries_iff {d : Dict α} : (k, v) ∈ d.entries ↔ d.get? k = some v := by
  rw [get?, Option.map_eq_some_iff]
  constructor
  · intro h
    exact ⟨(k, v), find?_of_mem d.ascending h, rfl⟩
  · rintro ⟨e, he, rfl⟩
    have hkey := List.find?_some he
    rw [beq_iff_eq] at hkey
    rw [← hkey]
    exact List.mem_of_find?_eq_some he

theorem ext_get? {d d' : Dict α} (h : ∀ k, d.get? k = d'.get? k) : d = d' := by
  have hirrefl : Std.Irrefl fun a b : String × α => a.1 < b.1 := ⟨fun a => String.lt_irrefl a.1⟩
  have hantisymm : Std.Antisymm fun a b : String × α => a.1 < b.1 :=
    ⟨fun _ _ hab hba => absurd hba (String.lt_asymm hab)⟩
  have hentries : d.entries = d'.entries :=
    d.ascending.eq_of_mem_iff d'.ascending fun e => by
      rw [mem_entries_iff, mem_entries_iff, h]
  cases d
  cases d'
  simp_all

theorem foldl_erase_keys (d : Dict α) : d.keys.foldl erase d = ∅ := by
  apply ext_get?
  intro k
  rw [get?_foldl_erase, get?_empty]
  by_cases hk : k ∈ d.keys
  · exact if_pos hk
  · rw [if_neg hk, Option.eq_none_iff_forall_not_mem]
    intro v hv
    exact hk (List.mem_map_of_mem (mem_entries_iff.mpr hv))

theorem get?_ofList_filter (d : Dict α) (p : String → Bool) (k : String) :
    (ofList (d.entries.filter fun e => p e.1)).get? k = if p k then d.get? k else none := by
  rw [get?, entries_ofList (d.ascending.filter _), List.find?_filter]
  split
  · rename_i hk
    have hkey : ∀ e : String × α, decide (p e.1 ∧ e.1 == k) = (e.1 == k) := by
      intro e
      by_cases he : e.1 = k <;> simp [he, hk]
    simp only [hkey, get?]
  · rename_i hk
    rw [Option.map_eq_none_iff, List.find?_eq_none]
    intro e _ he
    obtain ⟨hp, hkey⟩ := of_decide_eq_true he
    exact hk (beq_iff_eq.mp hkey ▸ hp)

end BehaviorTree.Dict
