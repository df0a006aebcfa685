import BehaviorTree.Proofs.Tick.Repeat
import BehaviorTree.Proofs.Tree.Count

/-!
# Counts of repetitions

How many runs a repetition counts is set with a whole number. In any tree it keeps to the number that is
read from what is set, and so to what is set when that is read as it is.
-/

namespace BehaviorTree.Executor

/-- Whether the repetitions of a tree that set a number of runs keep to a limit, in any ticks from where
they remember fewer: with those that it remembers, a repeater succeeds exactly with the runs of its child
whose number is a multiple of the limit, and a repetition that waits for a status gives up exactly with
the one that makes up the limit since it ended itself. -/
def KeepsTo (e : Executor) (c limit : Nat) : Prop :=
  let ix := Index.build e.tree
  ∀ (inputs : List Input) (p child : Fin ix.size) (d : Definition) (i : Nat) (m : Moment)
    (v : Visit ix.size),
    let id := ix.name p
    let s : Settings := ⟨(ix.slot p).node, d⟩
    let before := (e.store.state id).memory.iteration.toNat
    let past := (ledgerOf ix e inputs p).take i
    (ix.slot p).definition = some d → (ix.slot p).children.head? = some child → before < limit →
      (ledgerOf ix e inputs p)[i]? = some (m, v) →
        (d.kind = .decorator .repeater → s.Gives "count" c →
          v.Counts id child limit (before + endings (·.isDone) (past ++ [(m, v)]))) ∧
        ∀ k awaited, d.kind = .decorator k → k.awaited? = some awaited →
          s.Gives "maxIterations" c → v.RepeatsUntil id child limit
            (carried before past + endings (· = awaited.invert) (sinceEnded past ++ [(m, v)]))
            awaited

/-- A number of runs that a node sets, as a number or in digits, is read in single precision. That leaves
it as it is exactly if it is a multiple of its grain or the greatest of 32 bits, and so up to 24 binary
digits. Repetitions keep to the number that is read, in any tree and from any states. -/
theorem keepsTo_readCount {c : Nat} (hpos : 0 < c) (hlt : c < 2 ^ 32) :
    (∀ (s : Settings) name, s.Gives name c → (s.count name).toNat = readCount c) ∧
      (readCount c = c ↔ singleGrain c ∣ c ∨ c = 2 ^ 32 - 1) ∧ (c ≤ 2 ^ 24 → readCount c = c) ∧
      ∀ e : Executor, e.currentIndex = .build e.tree → e.KeepsTo c (readCount c) := by
  have hread : ∀ (s : Settings) name, s.Gives name c → (s.count name).toNat = readCount c :=
    fun s name h => h.toNat_count hpos hlt
  have hlimit : ∀ {s : Settings} {name : String}, s.Gives name c →
      Decorator.limitOf (s.count name) = readCount c := by
    intro s name h
    rw [Decorator.limitOf, hread s name h]
    exact max_eq_left (readCount_pos hpos)
  refine ⟨hread, readCount_eq_self_iff hlt, readCount_eq_self_of_le hpos, fun e he => ?_⟩
  intro inputs p child d i m v id s before past hd hchild hbefore h
  constructor
  · intro hkind hgives
    exact counts_ledger he hd hkind hchild (hlimit hgives) rfl hbefore h
  · intro k awaited hkind hawaited hgives
    exact repeatsUntil_ledger he hd hkind hawaited hchild (hlimit hgives) rfl hbefore h

theorem keepsTo_readCount_two :
    let tree (type limit : String) (value : Json) : Tree :=
      { Tree.single type ["leaf"] with
        nodes := [⟨"root", type, .ofList [(limit, value)]⟩, ⟨"leaf", "never", ∅⟩] }
    let i : Input := ⟨"actor", 0.5, ∅, ∅⟩
    let e := ofGenerator (tree "repeater" "count" (.integer 2)) ⟨0⟩
    let ticks := ledgerOf (.build e.tree) e [i, i, i] ⟨0, by decide⟩
    let e' := ofGenerator (tree "repeat_until_success" "maxIterations" (.string "2")) ⟨0⟩
    let ticks' := ledgerOf (.build e'.tree) e' [i, i, i] ⟨0, by decide⟩
    readCount 2 = 2 ∧ ticks.map (·.2.status) = [.running, .success, .running] ∧
      ticks'.map (·.2.status) = [.running, .failure, .running] ∧
      (∃ x, ticks[2]? = some x ∧ x.2.Counts "root" ⟨1, by decide⟩ 2 3) ∧
      ∃ x, ticks'[2]? = some x ∧ x.2.RepeatsUntil "root" ⟨1, by decide⟩ 2 1 .success := by
  intro tree i e ticks e' ticks'
  have htwo : readCount 2 = 2 := by decide
  have hlaw := (keepsTo_readCount (c := 2) (by decide) (by decide)).2.2.2
  rw [htwo] at hlaw
  let d : Definition := ⟨"repeater", .decorator .repeater, [⟨"count", .number 3⟩]⟩
  let d' : Definition :=
    ⟨"repeat_until_success", .decorator .repeatUntilSuccess, [⟨"maxIterations", .number 100⟩]⟩
  let before := (e.store.state "root").memory.iteration.toNat
  let before' := (e'.store.state "root").memory.iteration.toNat
  have hcount : (ticks[2]?).map (fun x =>
      before + endings (·.isDone) (ticks.take 2 ++ [x])) = some 3 := by decide +kernel
  have hcount' : (ticks'[2]?).map (fun x =>
      carried before' (ticks'.take 2) + endings (· = Status.success.invert) (sinceEnded (ticks'.take 2) ++ [x])) =
      some 1 := by decide +kernel
  obtain ⟨⟨m, v⟩, hx, hthree⟩ := Option.map_eq_some_iff.mp hcount
  obtain ⟨⟨m', v'⟩, hy, hone⟩ := Option.map_eq_some_iff.mp hcount'
  have hcounts : v.Counts "root" ⟨1, by decide⟩ 2
      (before + endings (·.isDone) (ticks.take 2 ++ [(m, v)])) :=
    (hlaw e rfl [i, i, i] ⟨0, by decide⟩ ⟨1, by decide⟩ d 2 m v rfl (by decide +kernel) (by decide)
      hx).1 rfl (.inl rfl)
  have huntil : v'.RepeatsUntil "root" ⟨1, by decide⟩ 2 (carried before' (ticks'.take 2) +
      endings (· = Status.success.invert) (sinceEnded (ticks'.take 2) ++ [(m', v')])) .success :=
    (hlaw e' rfl [i, i, i] ⟨0, by decide⟩ ⟨1, by decide⟩ d' 2 m' v' rfl (by decide +kernel)
      (by decide) hy).2 _ _ rfl rfl (.inr rfl)
  rw [hthree] at hcounts
  rw [hone] at huntil
  exact ⟨htwo, by decide +kernel, by decide +kernel, ⟨_, hx, hcounts⟩, _, hy, huntil⟩

/-- A repeater that is to count 16777217 runs reads 16777216, and is done with as many. -/
theorem not_keepsTo_of_rounded :
    let node : Node := ⟨"root", "repeater", .ofList [("count", .integer 16777217)]⟩
    let d : Definition := ⟨"repeater", .decorator .repeater, [⟨"count", .number 3⟩]⟩
    let s : Settings := ⟨node, d⟩
    let t : Tree :=
      { Tree.single "repeater" ["leaf"] with nodes := [node, ⟨"leaf", "always", ∅⟩] }
    let counted : NodeState := ⟨.running, 0, { Memory.initial with iteration := 16777215 }⟩
    let e := (ofGenerator t ⟨0⟩).restore (.ofList [("root", counted)])
    s.Gives "count" 16777217 ∧ s.count "count" = 16777216 ∧
      (e.execute "actor" 0 ⟨∅, ∅⟩).status = .success ∧ ¬ e.KeepsTo 16777217 16777217 := by
  intro node d s t counted e
  refine ⟨.inl rfl, by decide +kernel, by decide +kernel, fun hkeeps => ?_⟩
  let ticks := ledgerOf (.build e.tree) e [⟨"actor", 0, ∅, ∅⟩] ⟨0, by decide⟩
  let before := (e.store.state "root").memory.iteration.toNat
  have hvisit : (ticks[0]?).map (fun x =>
      (before + endings (·.isDone) (ticks.take 0 ++ [x]), x.2.status)) =
      some (16777216, .success) := by decide +kernel
  obtain ⟨⟨m, v⟩, hx, hend⟩ := Option.map_eq_some_iff.mp hvisit
  obtain ⟨hcount, hsuccess⟩ := Prod.mk.inj hend
  have hcounts : v.Counts "root" ⟨1, by decide⟩ 16777217
      (before + endings (·.isDone) (ticks.take 0 ++ [(m, v)])) :=
    (hkeeps _ ⟨0, by decide⟩ ⟨1, by decide⟩ d 0 m v rfl (by decide +kernel) (by decide) hx).1 rfl
      (.inl rfl)
  rw [hcount] at hcounts
  obtain ⟨result, -, -, hrunning⟩ := hcounts
  rw [hsuccess, if_neg (by simp)] at hrunning
  cases hrunning

end BehaviorTree.Executor
