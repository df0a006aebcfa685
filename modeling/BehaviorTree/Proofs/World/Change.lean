import BehaviorTree.Proofs.World.Kept

/-!
# Histories of worlds

The entity under a name is the one that was last put there, with all partial changes that were made to it
since. So a world is told by the changes that were made to it, in order.
-/

namespace BehaviorTree.World

/-- One change that is made to a world. -/
inductive Change where
  | insert (e : Entity)
  | remove (name : String)
  | patch (name : String) (p : Patch)
  | emit (name : String) (payload : Json)
  /-- All events are taken from the log. -/
  | take

def make (w : World) : Change → World
  | .insert e => w.insert e
  | .remove name => w.remove name
  | .patch name p => w.update name p
  | .emit name payload => w.emit name payload
  | .take => w.clearEvents

def made (w : World) (changes : List Change) : World := changes.foldl make w

namespace Change

/-- Whether a change puts another entity under a name, or none. -/
def Replaces (name : String) : Change → Prop
  | insert e => e.name = name
  | remove name' => name' = name
  | patch _ _ | emit _ _ | take => False

def patch? (name : String) : Change → Option Patch
  | patch name' p => if name' = name then some p else none
  | insert _ | remove _ | emit _ _ | take => none

end Change

/-- Whether an entity is the last one that some changes put under a name and left there, with all later
partial changes made to it in order. -/
def Stands (changes : List Change) (name : String) (e : Entity) : Prop :=
  ∃ before first after, changes = before ++ .insert first :: after ∧ first.name = name ∧
    (∀ c ∈ after, ¬ c.Replaces name) ∧
    e = (after.filterMap (Change.patch? name)).foldl Entity.apply first

section

variable {w : World} {changes : List Change} {c : Change} {name : String} {e : Entity} {p : Patch}

theorem made_append (w : World) (changes later : List Change) :
    w.made (changes ++ later) = (w.made changes).made later :=
  List.foldl_append

theorem get?_insert (w : World) (e : Entity) (name : String) :
    (w.insert e).get? name = if name = e.name then some e else w.get? name :=
  w.entities.get?_insert e.name name e

theorem get?_remove (w : World) (name name' : String) :
    (w.remove name).get? name' = if name' = name then none else w.get? name' :=
  w.entities.get?_erase name name'

theorem get?_ofEntities (es : List Entity) (name : String) :
    (ofEntities es).get? name = (es.filter (·.name = name)).getLast? := by
  induction es using List.reverseRecOn with
  | nil => rfl
  | append_singleton es e ih =>
    have hlast : ofEntities (es ++ [e]) = (ofEntities es).insert e := List.foldl_concat _ _ _ _
    rw [hlast, get?_insert, List.filter_append]
    by_cases hname : name = e.name
    · simp [hname]
    · rw [if_neg hname, ih]
      simp [Ne.symm hname]

theorem get?_make_of_not_replaces (h : ¬ c.Replaces name) (w : World) :
    (w.make c).get? name =
      (w.get? name).map fun e => (c.patch? name).toList.foldl Entity.apply e := by
  cases c with
  | insert e => simp [make, get?_insert, Ne.symm h, Change.patch?]
  | remove name' => simp [make, get?_remove, Ne.symm h, Change.patch?]
  | patch name' p =>
    rw [make, get?_update, Change.patch?]
    by_cases hname : name' = name
    · rw [if_pos hname.symm, if_pos hname, hname]
      rfl
    · simp [Ne.symm hname, hname]
  | emit name' payload => simp [make, emit, get?, Change.patch?]
  | take => simp [make, clearEvents, get?, Change.patch?]

theorem get?_made_of_not_replaces (h : ∀ c ∈ changes, ¬ c.Replaces name) (w : World) :
    (w.made changes).get? name = (w.get? name).map fun e =>
      (changes.filterMap (Change.patch? name)).foldl Entity.apply e := by
  induction changes generalizing w with
  | nil => simp [made]
  | cons c rest ih =>
    obtain ⟨hc, hrest⟩ := List.forall_mem_cons.mp h
    have hmade : w.made (c :: rest) = (w.make c).made rest := rfl
    rw [hmade, ih hrest, get?_make_of_not_replaces hc, Option.map_map, List.filterMap_cons]
    cases c.patch? name <;> rfl

theorem Stands.concat (h : Stands changes name e) (hc : ¬ c.Replaces name) :
    Stands (changes ++ [c]) name ((c.patch? name).toList.foldl Entity.apply e) := by
  obtain ⟨before, first, after, rfl, hname, hafter, rfl⟩ := h
  refine ⟨before, first, after ++ [c], by simp, hname, ?_, ?_⟩
  · exact List.forall_mem_append.mpr ⟨hafter, List.forall_mem_singleton.mpr hc⟩
  · rw [List.filterMap_append, List.foldl_append, List.filterMap_cons]
    cases c.patch? name <;> rfl

theorem Stands.of_replaces (hc : c.Replaces name) (h : (w.make c).get? name = some e) :
    Stands (changes ++ [c]) name e := by
  cases c with
  | insert first =>
    have hname : first.name = name := hc
    rw [make, get?_insert, if_pos hname.symm, Option.some.injEq] at h
    subst h
    exact ⟨changes, first, [], rfl, hname, by simp, rfl⟩
  | remove name' =>
    have hname : name' = name := hc
    rw [make, get?_remove, if_pos hname.symm] at h
    exact nomatch h
  | patch _ _ | emit _ _ | take => exact hc.elim

/-- In a world that was made by changes only, the entities that stand under names are those that the
changes left there. -/
theorem get?_made_eq_some_iff :
    ((∅ : World).made changes).get? name = some e ↔ Stands changes name e := by
  constructor
  · intro h
    induction changes using List.reverseRecOn generalizing e with
    | nil => nomatch h
    | append_singleton changes c ih =>
      rw [made_append] at h
      change ((made ∅ changes).make c).get? name = some e at h
      by_cases hc : c.Replaces name
      · exact .of_replaces hc h
      · rw [get?_make_of_not_replaces hc, Option.map_eq_some_iff] at h
        obtain ⟨e, he, rfl⟩ := h
        exact (ih he).concat hc
  · rintro ⟨before, first, after, rfl, rfl, hafter, rfl⟩
    have hmade : made ∅ (before ++ .insert first :: after) =
        ((made ∅ before).insert first).made after := by
      rw [made_append]
      rfl
    rw [hmade, get?_made_of_not_replaces hafter, get?_insert, if_pos rfl, Option.map_some]

theorem Stands.name_eq (h : Stands changes name e) : e.name = name := by
  obtain ⟨before, first, after, -, rfl, -, rfl⟩ := h
  generalize after.filterMap (Change.patch? first.name) = patches
  induction patches using List.reverseRecOn with
  | nil => rfl
  | append_singleton patches p ih => rw [List.foldl_append]; exact ih

end

end BehaviorTree.World
