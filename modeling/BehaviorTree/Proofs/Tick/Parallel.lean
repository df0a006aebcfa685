import BehaviorTree.Proofs.Tick.Once

/-!
# Parallel nodes

A parallel node ticks all its children in every tick, each in the frame that the one before left. Its
policies then decide on its result by how many children returned each status, whichever these were.
-/

namespace BehaviorTree

section

variable {n : Nat}

/-- Whether the ticks of children follow one another from one frame to another: each meets the frame
that the one before left. -/
def Relays (tick : Ticker n) : Frame → List (Call n) → Frame → Prop
  | f, [], g => f = g
  | f, c :: rest, g =>
    c.before = f ∧ (c.status, c.after) = tick c.child f ∧ Relays tick c.after rest g

theorem Script.relays_each (tick : Ticker n) (outcome : List Status → Status)
    (children : List (Fin n)) (f : Frame) :
    let s := each (fun statuses f => .finish (outcome statuses) f) children f
    Relays tick f (s.calls tick) (s.run tick).2 ∧
      (s.run tick).1 = outcome ((s.calls tick).map (·.status)) := by
  induction children generalizing outcome f with
  | nil => exact ⟨rfl, rfl⟩
  | cons child rest ih =>
    obtain ⟨hrelays, hstatus⟩ :=
      ih (fun statuses => outcome ((tick child f).1 :: statuses)) (tick child f).2
    exact ⟨⟨rfl, rfl, hrelays⟩, hstatus⟩

end

/-- How many children returned each status. -/
structure Tally where
  successes : Nat
  failures : Nat
  runnings : Nat

namespace Tally

def of (results : List Status) : Tally :=
  ⟨results.count .success, results.count .failure, results.count .running⟩

def total (tally : Tally) : Nat := tally.successes + tally.failures + tally.runnings

theorem of_perm {results results' : List Status} (h : results.Perm results') :
    of results = of results' := by
  simp only [of, h.count_eq]

theorem total_of (results : List Status) : (of results).total = results.length := by
  induction results with
  | nil => rfl
  | cons status rest ih =>
    rw [List.length_cons, ← ih]
    cases status <;> simp [of, total] <;> omega

end Tally

namespace Settings

def Fails (s : Settings) (tally : Tally) : Prop :=
  if s.text "failurePolicy" = "all" then tally.failures = tally.total else 0 < tally.failures

def Succeeds (s : Settings) (tally : Tally) : Prop :=
  if s.text "successPolicy" = "one" then 0 < tally.successes else tally.successes = tally.total

instance (s : Settings) (tally : Tally) : Decidable (s.Fails tally) :=
  inferInstanceAs (Decidable (ite _ _ _))

instance (s : Settings) (tally : Tally) : Decidable (s.Succeeds tally) :=
  inferInstanceAs (Decidable (ite _ _ _))

/-- Whether a status is what the policies of a parallel node make of so many results: they look for a
failure first, and a node of which no policy holds is running while a child is. -/
structure Decides (s : Settings) (tally : Tally) (status : Status) : Prop where
  failure : status = .failure ↔ s.Fails tally
  success : status = .success ↔ ¬ s.Fails tally ∧ (s.Succeeds tally ∨ tally.runnings = 0)
  running : status = .running ↔ ¬ s.Fails tally ∧ ¬ s.Succeeds tally ∧ 0 < tally.runnings

def unset (s : Settings) : Settings := ⟨{ s.node with data := ∅ }, s.definition⟩

end Settings

namespace Composite

private theorem verdict_eq (s : Settings) (results : List Status) :
    verdict (s.text "successPolicy" = "one") (s.text "failurePolicy" = "all") results =
      if s.Fails (.of results) then .failure
      else if s.Succeeds (.of results) then .success
      else if 0 < (Tally.of results).runnings then .running
      else .success := by
  have hrunning : .running ∈ results ↔ 0 < (Tally.of results).runnings := List.count_pos_iff.symm
  simp only [verdict, Settings.Fails, Settings.Succeeds, Tally.total_of, hrunning, decide_eq_true_eq]
  rfl

/-- What the policies come to is what the numbers of results decide on. -/
theorem decides_verdict (s : Settings) (results : List Status) :
    s.Decides (.of results)
      (verdict (s.text "successPolicy" = "one") (s.text "failurePolicy" = "all") results) := by
  rw [verdict_eq]
  by_cases hfails : s.Fails (.of results)
  · rw [if_pos hfails]
    constructor <;> simp [hfails]
  · rw [if_neg hfails]
    by_cases hsucceeds : s.Succeeds (.of results)
    · rw [if_pos hsucceeds]
      constructor <;> simp [hfails, hsucceeds]
    · rw [if_neg hsucceeds]
      by_cases hrunning : 0 < (Tally.of results).runnings
      · rw [if_pos hrunning]
        constructor <;> simp [hfails, hsucceeds, hrunning, hrunning.ne']
      · rw [if_neg hrunning]
        constructor <;> simp [hfails, hsucceeds, Nat.eq_zero_of_not_pos hrunning]

/-- The result of a parallel node by those of its children, of which there may be none. -/
def outcome (s : Settings) (results : List Status) : Status :=
  if results = [] then .success
  else verdict (s.text "successPolicy" = "one") (s.text "failurePolicy" = "all") results

/-- Nodes of the same policies come to the same result whatever the order of the results. -/
theorem outcome_perm {s s' : Settings} (hsuccess : s'.text "successPolicy" = s.text "successPolicy")
    (hfailure : s'.text "failurePolicy" = s.text "failurePolicy") {results results' : List Status}
    (h : results'.Perm results) : outcome s' results' = outcome s results := by
  have hnil : results' = [] ↔ results = [] := by
    rw [← List.length_eq_zero_iff, h.length_eq, List.length_eq_zero_iff]
  have hfails : s'.Fails (.of results) ↔ s.Fails (.of results) := by
    rw [Settings.Fails, Settings.Fails, hfailure]
  have hsucceeds : s'.Succeeds (.of results) ↔ s.Succeeds (.of results) := by
    rw [Settings.Succeeds, Settings.Succeeds, hsuccess]
  simp only [outcome, verdict_eq, Tally.of_perm h, hnil, hfails, hsucceeds]

/-- A parallel node ticks all its children one after the other, and their results decide on its own. -/
theorem abreastScript_spec {n : Nat} (tick : Ticker n) (s : Settings) (children : List (Fin n))
    (f : Frame) :
    let script := abreastScript s children f
    script.asked tick = children ∧ Relays tick f (script.calls tick) (script.run tick).2 ∧
      (script.run tick).1 = outcome s ((script.calls tick).map (·.status)) := by
  intro script
  by_cases hnil : children = []
  · subst hnil
    exact ⟨rfl, rfl, rfl⟩
  · have hscript : script = Script.each (fun statuses f => .finish
        (verdict (s.text "successPolicy" = "one") (s.text "failurePolicy" = "all") statuses) f)
        children f := if_neg (by simpa using hnil)
    have hasked : script.asked tick = children := by
      rw [hscript]
      exact Script.asked_each tick (fun _ _ => rfl) children f
    obtain ⟨hrelays, hstatus⟩ := Script.relays_each tick _ children f
    rw [← hscript] at hrelays hstatus
    refine ⟨hasked, hrelays, ?_⟩
    rw [outcome, if_neg, hstatus]
    intro hnone
    rw [List.map_eq_nil_iff] at hnone
    rw [Script.asked, hnone] at hasked
    exact hnil hasked.symm

end Composite

namespace Catalog

theorem text_unset_parallel {type : String} {d : Definition} (h : lookup type = some d)
    (hkind : d.kind = .composite .parallel) (node : Node) :
    let s := (⟨node, d⟩ : Settings).unset
    s.text "successPolicy" = "all" ∧ s.text "failurePolicy" = "one" := by
  have hall : ∀ d ∈ definitions, d.kind = .composite .parallel → d.parameters =
      [⟨"successPolicy", .choice policies "all"⟩, ⟨"failurePolicy", .choice policies "one"⟩] := by
    decide
  have hparameters := hall d (List.mem_of_find?_eq_some h) hkind
  obtain ⟨typeName, kind, parameters⟩ := d
  subst hparameters
  exact ⟨rfl, rfl⟩

end Catalog

namespace Index

variable {ix : Index} {p : Fin ix.size} {d : Definition}

theorem visit_of_parallel (hd : (ix.slot p).definition = some d)
    (hkind : d.kind = .composite .parallel) (m : Moment) (room : Nat) (f : Frame) :
    let v := ix.visit m room p f
    v.calls.map (·.child) = (ix.slot p).children ∧
      (∃ g, Relays (tick ix m room) (ix.enter m room p f) v.calls g ∧
        v.after = ix.leave p v.status g) ∧
      v.status = Composite.outcome ⟨(ix.slot p).node, d⟩ (v.results.map (·.2)) := by
  intro v
  obtain ⟨hasked, hrelays, hstatus⟩ := Composite.abreastScript_spec (tick ix m room)
    ⟨(ix.slot p).node, d⟩ (ix.slot p).children (ix.enter m room p f)
  have hscript := script_of_composite hd hkind m (ix.enter m room p f)
  rw [Composite.script] at hscript
  rw [← hscript] at hasked hrelays hstatus
  have hrun := tick_succ ix m room p f
  dsimp only at hrun
  have hended : v.status = _ := congrArg (·.1) hrun
  have hleft : v.after = _ := congrArg (·.2) hrun
  refine ⟨hasked, ⟨_, hrelays, ?_⟩, ?_⟩
  · rw [hleft, hended]
  · rw [hended, hstatus, Visit.results, List.map_map]
    rfl

/-- A parallel node ticks all its children in their order whatever they return, each in the frame that
the one before left, and the numbers of their results decide on its own. So it returns the same for
every order of these results, and is running only if a child is. Any text but the one that a policy is
compared with acts as the default. -/
theorem decides_of_parallel {t : Tree} {p : Fin (build t).size} {d : Definition}
    (hd : ((build t).slot p).definition = some d) (hkind : d.kind = .composite .parallel)
    (m : Moment) (room : Nat) (f : Frame) :
    let v := (build t).visit m room p f
    let s : Settings := ⟨((build t).slot p).node, d⟩
    let results := v.results.map (·.2)
    v.calls.map (·.child) = ((build t).slot p).children ∧
      ((∀ q < p, (build t).name q ≠ (build t).name p) →
        v.calls.map (fun c => ((build t).slot c.child).node) = t.childrenOf ((build t).name p)) ∧
      (∃ g, Relays (tick (build t) m room) ((build t).enter m room p f) v.calls g ∧
        v.after = (build t).leave p v.status g) ∧
      (results ≠ [] → s.Decides (.of results) v.status) ∧
      (v.status = .running → .running ∈ results) ∧
      (∀ {t' : Tree} {p' : Fin (build t').size} {d' : Definition},
        ((build t').slot p').definition = some d' → d'.kind = .composite .parallel →
        let s' : Settings := ⟨((build t').slot p').node, d'⟩
        s'.text "successPolicy" = s.text "successPolicy" →
        s'.text "failurePolicy" = s.text "failurePolicy" → ∀ m' room' f',
          let v' := (build t').visit m' room' p' f'
          (v'.results.map (·.2)).Perm results → v'.status = v.status) ∧
      (s.text "successPolicy" ≠ "one" → ∀ tally, s.Succeeds tally ↔ s.unset.Succeeds tally) ∧
      (s.text "failurePolicy" ≠ "all" → ∀ tally, s.Fails tally ↔ s.unset.Fails tally) := by
  intro v s results
  obtain ⟨hchildren, hrelays, hstatus⟩ := visit_of_parallel hd hkind m room f
  have hdecides : results ≠ [] → s.Decides (.of results) v.status := by
    intro hsome
    rw [hstatus, Composite.outcome, if_neg hsome]
    exact Composite.decides_verdict s results
  have hlookup : Catalog.lookup (t.nodes.get p).type = some d := by
    rw [← hd, slot_build]
    rfl
  obtain ⟨hall, hone⟩ := Catalog.text_unset_parallel hlookup hkind ((build t).slot p).node
  refine ⟨hchildren, fun hfirst => ?_, hrelays, hdecides, fun hrunning => ?_, ?_,
    fun hother tally => ?_, fun hother tally => ?_⟩
  · rw [← map_node_children (position?_name hfirst), ← hchildren, List.map_map]
    rfl
  · have hsome : results ≠ [] := by
      intro hnil
      have hsuccess : v.status = .success := hstatus.trans (if_pos hnil)
      rw [hsuccess] at hrunning
      cases hrunning
    have hpos := ((hdecides hsome).running.mp hrunning).2.2
    exact List.count_pos_iff.mp hpos
  · intro t' p' d' hd' hkind' s' hsuccess hfailure m' room' f' v' hperm
    obtain ⟨-, -, hstatus'⟩ := visit_of_parallel hd' hkind' m' room' f'
    exact hstatus'.trans ((Composite.outcome_perm hsuccess hfailure hperm).trans hstatus.symm)
  · rw [Settings.Succeeds, Settings.Succeeds, hall, if_neg hother, if_neg (by decide)]
  · rw [Settings.Fails, Settings.Fails, hone, if_neg hother, if_neg (by decide)]

/-- One child that succeeds and one that fails, in either order, where all must do the same: neither
policy holds, and no child is running. -/
theorem decides_of_parallel_mixed :
    let tree (first second : String) : Tree :=
      { Tree.single "parallel" [] with
        nodes := [⟨"root", "parallel", .ofList [("failurePolicy", .string "all")]⟩,
          ⟨"yes", "always", ∅⟩, ⟨"no", "never", ∅⟩]
        connections := [⟨"root", first, 0⟩, ⟨"root", second, 1⟩] }
    let m : Moment := ⟨"actor", 0.5⟩
    let f : Frame := (Executor.ofGenerator (tree "" "") ⟨0⟩).start ⟨∅, ∅⟩
    let v := (build (tree "yes" "no")).visit m 2 ⟨0, by decide⟩ f
    let v' := (build (tree "no" "yes")).visit m 2 ⟨0, by decide⟩ f
    v.results.map (·.2) = [.success, .failure] ∧ v'.results.map (·.2) = [.failure, .success] ∧
      (∃ s : Settings, s.text "successPolicy" = "all" ∧ s.text "failurePolicy" = "all" ∧
        s.Decides ⟨1, 1, 0⟩ v.status) ∧
      v'.status = v.status := by
  intro tree m f v v'
  have hsorted : ∀ first second, Connection.sorted (tree first second).connections =
      (tree first second).connections := by
    intro first second
    simp [tree, Connection.sorted, List.mergeSort]
  have hresults : v.results.map (·.2) = [.success, .failure] := by
    simp only [v]
    delta build links
    dsimp only
    rw [hsorted]
    decide +kernel
  have hresults' : v'.results.map (·.2) = [.failure, .success] := by
    simp only [v']
    delta build links
    dsimp only
    rw [hsorted]
    decide +kernel
  obtain ⟨-, -, -, hdecides, -, horder, -⟩ :=
    decides_of_parallel (t := tree "yes" "no") (p := ⟨0, by decide⟩) rfl rfl m 2 f
  have hsome : v.results.map (·.2) ≠ [] := by
    rw [hresults]
    exact List.cons_ne_nil _ _
  have hmixed : Settings.Decides _ (.of (v.results.map (·.2))) v.status := hdecides hsome
  rw [hresults] at hmixed
  have hperm : (v'.results.map (·.2)).Perm (v.results.map (·.2)) := by
    rw [hresults, hresults']
    exact .swap _ _ _
  have hstatus : v'.status = v.status :=
    @horder (tree "no" "yes") ⟨0, by decide⟩ _ rfl rfl rfl rfl m 2 f hperm
  exact ⟨hresults, hresults', ⟨_, by decide +kernel, by decide +kernel, hmixed⟩, hstatus⟩

end Index

end BehaviorTree
