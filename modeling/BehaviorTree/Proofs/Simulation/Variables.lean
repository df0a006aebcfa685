import BehaviorTree.Proofs.Dict
import BehaviorTree.Proofs.Executor.Play
import BehaviorTree.Proofs.Simulation.Run
import BehaviorTree.Proofs.Tick.Deed
import BehaviorTree.Proofs.Tree.Children

/-!
# The variables of a simulation

A simulation keeps its variables twice: in the blackboard that it passes from tick to tick, and in that
of its tree. The two never drift apart, since nodes set variables in both, and only movement publishes
its velocity in the first alone.
-/

namespace BehaviorTree

/-- The value that a deed gives to a variable. -/
def Deed.value? (key : String) : Deed → Option Json
  | .strike _ _ => none
  | .write key' value => if key = key' then some value else none

/-- Whether the variables of the ticks include those of the tree. -/
def Blackboard.Covers (passing saved : Blackboard) : Prop :=
  ∀ key, (saved.get? key).isSome → (passing.get? key).isSome

namespace Blackboard.Covers

variable {passing saved : Blackboard}

theorem insert_left (h : Covers passing saved) (key : String) (value : Json) :
    Covers (passing.insert key value) saved := by
  intro key' hsaved
  rw [Dict.get?_insert]
  split
  · rfl
  · exact h key' hsaved

theorem insert (h : Covers passing saved) (key : String) (value : Json) :
    Covers (passing.insert key value) (saved.insert key value) := by
  intro key'
  rw [Dict.get?_insert, Dict.get?_insert]
  split
  · exact id
  · exact h key'

theorem mergeMissing (passing saved : Blackboard) : Covers (passing.mergeMissing saved) saved := by
  intro key hsaved
  rw [Dict.get?_mergeMissing, Option.isSome_or, hsaved, Bool.or_true]

end Blackboard.Covers

/-- Whether the variables of a tick are those of the tree, but for the velocity. -/
structure InStep (passing saved : Blackboard) : Prop where
  same : ∀ key, key ≠ velocityX → key ≠ velocityY → passing.get? key = saved.get? key
  present : ∀ key, (saved.get? key).isSome → (passing.get? key).isSome

namespace InStep

variable {passing saved : Blackboard}

theorem insert (h : InStep passing saved) (key : String) (value : Json) :
    InStep (passing.insert key value) (saved.insert key value) where
  same := by
    intro key' hx hy
    rw [Dict.get?_insert, Dict.get?_insert, h.same key' hx hy]
  present := Blackboard.Covers.insert h.present key value

theorem insert_velocity (h : InStep passing saved) {key : String}
    (hkey : key = velocityX ∨ key = velocityY) (value : Json) :
    InStep (passing.insert key value) saved where
  same := by
    intro key' hx hy
    have hne : key' ≠ key := by
      rcases hkey with rfl | rfl
      · exact hx
      · exact hy
    rw [Dict.get?_insert_of_ne _ _ hne]
    exact h.same key' hx hy
  present := Blackboard.Covers.insert_left h.present key value

theorem of_mergeMissing
    (h : ∀ key, key ≠ velocityX → key ≠ velocityY → ∀ value ∈ passing.get? key,
      saved.get? key = some value) : InStep (passing.mergeMissing saved) saved where
  same := by
    intro key hx hy
    rw [Dict.get?_mergeMissing]
    cases hpassing : passing.get? key with
    | none => exact Option.none_or
    | some value => exact (h key hx hy value hpassing).symm
  present := Blackboard.Covers.mergeMissing passing saved

theorem mergeMissing (h : InStep passing saved) : InStep (passing.mergeMissing saved) saved := by
  apply of_mergeMissing
  intro key hx hy value hvalue
  rw [← h.same key hx hy]
  exact hvalue

end InStep

namespace Surroundings

variable {agent : String} {o o' : Surroundings} {ds : List Deed}

theorem Step.inStep (h : Step agent o ds o') (hin : InStep o.blackboard o.saved) :
    InStep o'.blackboard o'.saved := by
  cases h with
  | steer velocity => exact (hin.insert_velocity (.inl rfl) _).insert_velocity (.inr rfl) _
  | move _ | strike _ _ => exact hin
  | write _ value => exact hin.insert _ value

theorem Course.inStep (h : Course agent o ds o') (hin : InStep o.blackboard o.saved) :
    InStep o'.blackboard o'.saved := by
  induction h with
  | done _ => exact hin
  | step first _ ih => exact ih (first.inStep hin)

private theorem Step.get?_saved (h : Step agent o ds o') (key : String) :
    o'.saved.get? key = (ds.filterMap (Deed.value? key)).getLast?.or (o.saved.get? key) := by
  cases h with
  | steer _ | move _ | strike _ _ => rfl
  | @write key' hkey value =>
    rw [Dict.get?_insert]
    by_cases h : key = key'
    · simp [Deed.value?, h]
    · simp [Deed.value?, h]

/-- A variable of the tree has the last value that is written to it. -/
theorem Course.get?_saved (h : Course agent o ds o') (key : String) :
    o'.saved.get? key = (ds.filterMap (Deed.value? key)).getLast?.or (o.saved.get? key) := by
  induction h with
  | done o => rfl
  | step first _ ih =>
    rw [ih, first.get?_saved, List.filterMap_append, List.getLast?_append, Option.or_assoc]

private theorem Step.value?_empty (h : Step agent o ds o') : ds.filterMap (Deed.value? "") = [] := by
  cases h with
  | steer _ | move _ | strike _ _ => rfl
  | @write key hkey value =>
    have hne : "" ≠ key := by
      rintro rfl
      exact absurd hkey (by decide)
    simp [Deed.value?, hne]

theorem Course.value?_empty (h : Course agent o ds o') :
    ds.filterMap (Deed.value? "") = [] := by
  induction h with
  | done _ => rfl
  | step first _ ih => rw [List.filterMap_append, first.value?_empty, ih, List.append_nil]

end Surroundings

def Executor.writes (e : Executor) (i : Input) (key : String) : List Json :=
  (e.deeds i).filterMap (Deed.value? key)

namespace Simulation

variable {s : Simulation}

private theorem course_step {root : Fin s.executor.currentIndex.size}
    (hroot : s.executor.currentIndex.root = some root) (dt : Float32) :
    Surroundings.Course s.agent
      ⟨s.scene.world, s.scene.blackboard.mergeMissing s.executor.tree.blackboard,
        s.executor.tree.blackboard⟩
      (s.executor.deeds (s.input dt))
      ⟨(s.executor.execute s.agent dt s.scene).scene.world, (s.step dt).2.scene.blackboard,
        (s.step dt).2.executor.tree.blackboard⟩ :=
  s.executor.course_execute (s.input dt) hroot

private theorem inStep_run {ix : Index} (hindex : s.executor.currentIndex = ix)
    {root : Fin ix.size} (hroot : ix.root = some root)
    (hmerged : InStep (s.scene.blackboard.mergeMissing s.executor.tree.blackboard)
      s.executor.tree.blackboard) (dts : List Float32) :
    InStep ((s.after dts).scene.blackboard.mergeMissing (s.after dts).executor.tree.blackboard)
      (s.after dts).executor.tree.blackboard := by
  induction dts generalizing s with
  | nil => exact hmerged
  | cons dt rest ih =>
    subst hindex
    have hstep := (course_step hroot dt).inStep hmerged
    exact ih (currentIndex_after s [dt]) hstep.mergeMissing

/-- After any step, the variables of the ticks and those of the tree are the same but for the velocity.
A step changes a variable of the tree to the last value that a node has written to it; it writes to
none without a name, and removes none. -/
theorem inStep_after {t : Tree} {w : World} {c : Configuration} {unseeded : Generator} {n : Node}
    (hs : create t w c unseeded = .ok s) (hroot : t.rootNode? = some n) (dts : List Float32)
    (dt : Float32) :
    let before := (s.after dts).executor
    let after := s.after (dts ++ [dt])
    let writes := before.writes ((s.after dts).input dt)
    let saved := after.executor.tree.blackboard
    InStep after.scene.blackboard saved ∧
      (∀ key, saved.get? key = (writes key).getLast?.or (before.tree.blackboard.get? key)) ∧
      writes "" = [] ∧
      ∀ key, (before.tree.blackboard.get? key).isSome → (saved.get? key).isSome := by
  intro before after writes saved
  obtain ⟨hexecutor, hscene, -⟩ := of_create hs
  obtain ⟨root, hbuild, -⟩ := Index.exists_root hroot
  have hindex : s.executor.currentIndex = .build t := by
    rw [hexecutor, Executor.currentIndex_create]
  have hmerged : InStep (s.scene.blackboard.mergeMissing s.executor.tree.blackboard)
      s.executor.tree.blackboard := by
    rw [hscene]
    exact .of_mergeMissing (by simp)
  have hstart := inStep_run hindex hbuild hmerged dts
  have hbefore : before.currentIndex.root ≠ none := by
    rw [currentIndex_after, hindex, hbuild]
    exact Option.some_ne_none root
  obtain ⟨root', hroot'⟩ := Option.ne_none_iff_exists'.mp hbefore
  have hcourse := course_step hroot' dt
  rw [← after_concat] at hcourse
  have hsaved := hcourse.get?_saved
  refine ⟨hcourse.inStep hstart, hsaved, hcourse.value?_empty, ?_⟩
  intro key hkey
  have hlast := hsaved key
  rw [hlast, Option.isSome_or, hkey, Bool.or_true]

theorem inStep_after_overwritten :
    let n : Node :=
      ⟨"root", "set_blackboard", .ofList [("key", .string "k"), ("value", .bool true)]⟩
    let t : Tree :=
      { Tree.single "set_blackboard" [] with
        nodes := [n], blackboard := .ofList [("k", .null)] }
    let w := World.ofEntities [.create "Guard" .zero]
    let s : Simulation := ⟨.ofGenerator t ⟨0⟩, ⟨w, ∅⟩, "Guard", 0, []⟩
    let before := (s.after [1]).executor
    let after := s.after ([1] ++ [1])
    let writes := before.writes ((s.after [1]).input 1)
    let saved := after.executor.tree.blackboard
    create t w .standard ⟨0⟩ = .ok s ∧ t.rootNode? = some n ∧ writes "k" = [.bool true] ∧
      InStep after.scene.blackboard saved ∧
      (∀ key, saved.get? key = (writes key).getLast?.or (before.tree.blackboard.get? key)) ∧
      writes "" = [] ∧
      ∀ key, (before.tree.blackboard.get? key).isSome → (saved.get? key).isSome := by
  intro n t w s before after writes saved
  have hs : create t w .standard ⟨0⟩ = .ok s := rfl
  have hroot : t.rootNode? = some n := by decide +kernel
  have hwrites : writes "k" = [.bool true] := by decide +kernel
  exact ⟨hs, hroot, hwrites, inStep_after hs hroot [1] 1⟩

end Simulation

end BehaviorTree
