import BehaviorTree.Proofs.Tick.Clock
import BehaviorTree.Proofs.Tick.Ledger

/-!
# Repetitions

A repeater counts the runs that its child has ended under it, and a repetition that waits for a status
those that ended otherwise since it last ended itself. Both count up to their limit, which is at least
one, and then start anew. In any tree they do so in the order in which their visits end; where no cycle
can be reached, that is the order of their chronicle.
-/

namespace BehaviorTree

def Decorator.awaited? : Decorator → Option Status
  | repeatUntilFail => some .failure
  | repeatUntilSuccess => some .success
  | inverter | succeeder | failer | repeater | cooldown | timeout => none

theorem Decorator.awaited_ne_running {c : Decorator} {awaited : Status}
    (h : c.awaited? = some awaited) : awaited ≠ .running := by
  cases c with
  | repeatUntilFail | repeatUntilSuccess =>
    cases h
    decide
  | inverter | succeeder | failer | repeater | cooldown | timeout => cases h

section

variable {n : Nat}

/-- How many ticks of children ended with a status of a kind in some ticks of a node. -/
def endings (kind : Status → Bool) (ticks : List (Moment × Visit n)) : Nat :=
  (ticks.flatMap (·.2.results)).countP (kind ·.2)

theorem endings_concat (kind : Status → Bool) (ticks : List (Moment × Visit n))
    (x : Moment × Visit n) :
    endings kind (ticks ++ [x]) = endings kind ticks + x.2.results.countP (kind ·.2) := by
  simp [endings]

/-- The number of runs that was counted before some ticks of a node, until one of them ends. -/
def carried (before : Nat) (ticks : List (Moment × Visit n)) : Nat :=
  if ∀ x ∈ ticks, x.2.status = .running then before else 0

theorem carried_concat (before : Nat) (ticks : List (Moment × Visit n)) (x : Moment × Visit n) :
    carried before (ticks ++ [x]) = if x.2.status = .running then carried before ticks else 0 := by
  rw [carried, carried]
  by_cases hx : x.2.status = .running
  · rw [if_pos hx]
    exact if_congr (by simp [or_imp, forall_and, hx]) rfl rfl
  · rw [if_neg hx, if_neg fun h => hx (h x (by simp))]

@[simp] theorem carried_zero (ticks : List (Moment × Visit n)) : carried 0 ticks = 0 := ite_self _

namespace Visit

variable (id : String) (child : Fin n) (limit k : Nat) (v : Visit n)

/-- Whether a tick of a repeater with which its child has ended so many runs ticks the child once, counts
modulo the limit, and succeeds when the child ends the last run of as many. While the child is running
nothing happens. -/
def Repeats : Prop :=
  ∃ result, v.results = [(child, result)] ∧ (v.after.memory id).iteration.toNat = k % limit ∧
    if result = .running then v.status = .running ∧ v.after.memory id = v.before.memory id
    else v.status = if limit ∣ k then .success else .running

/-- Whether a tick of a repeater with which its child has ended so many runs ticks the child once, counts
modulo the limit, and succeeds when the child ends the last run of as many. -/
def Counts : Prop :=
  ∃ result, v.results = [(child, result)] ∧ (v.after.memory id).iteration.toNat = k % limit ∧
    v.status = if result ≠ .running ∧ limit ∣ k then .success else .running

/-- Whether a tick of a repetition, with which its child has ended so many runs otherwise than awaited
since the repetition ended, ticks the child once and succeeds on the awaited status, gives up on the
last run up to the limit, and else counts on. -/
def RepeatsUntil (awaited : Status) : Prop :=
  ∃ result, v.results = [(child, result)] ∧
    if result = awaited then v.status = .success ∧ (v.after.memory id).iteration = 0
    else if result ≠ .running ∧ k = limit then
      v.status = awaited.invert ∧ (v.after.memory id).iteration = 0
    else v.status = .running ∧ (v.after.memory id).iteration.toNat = k

end Visit

theorem Visit.RepeatsUntil.next {id : String} {child : Fin n} {limit before : Nat} {awaited : Status}
    {kind : Status → Bool} {past : List (Moment × Visit n)} {m : Moment} {v : Visit n}
    (h : v.RepeatsUntil id child limit
      (carried before past + endings kind (sinceEnded past ++ [(m, v)])) awaited)
    (hawaited : awaited ≠ .running) (hlimit : 0 < limit)
    (hlt : v.status = .running →
      carried before past + endings kind (sinceEnded past ++ [(m, v)]) < limit) :
    let counted := carried before (past ++ [(m, v)]) + endings kind (sinceEnded (past ++ [(m, v)]))
    (v.after.memory id).iteration.toNat = counted ∧ counted < limit := by
  obtain ⟨result, -, hresult⟩ := h
  rw [sinceEnded_concat, carried_concat]
  by_cases hrunning : v.status = .running
  · rw [if_pos hrunning, if_pos hrunning]
    rw [hrunning] at hresult
    refine ⟨?_, hlt hrunning⟩
    split at hresult
    · cases hresult.1
    · split at hresult
      · exact absurd hresult.1.symm (invert_ne_running hawaited)
      · exact hresult.2
  · rw [if_neg hrunning, if_neg hrunning]
    refine ⟨?_, hlimit⟩
    split at hresult
    · rw [hresult.2]
      rfl
    · split at hresult
      · rw [hresult.2]
        rfl
      · exact absurd hresult.1 hrunning

end

namespace Decorator

def limitOf (count : UInt32) : Nat := max count.toNat 1

theorem limitOf_pos (count : UInt32) : 0 < limitOf count := by
  rw [limitOf]
  omega

/-- One more run reaches the limit and starts anew, or is counted. -/
theorem countRun_spec (id : String) (count : UInt32) (outcome : Status) {f : Frame}
    (h : (f.memory id).iteration.toNat < limitOf count) :
    let done := countRun id count outcome f
    if (f.memory id).iteration.toNat + 1 = limitOf count then
      done.1 = outcome ∧ (done.2.memory id).iteration = 0
    else done.1 = .running ∧
      (done.2.memory id).iteration.toNat = (f.memory id).iteration.toNat + 1 := by
  have hcount := count.toNat_lt
  rw [limitOf] at h ⊢
  have hnext : ((f.memory id).iteration + 1).toNat = (f.memory id).iteration.toNat + 1 := by
    rw [UInt32.toNat_add]
    exact Nat.mod_eq_of_lt (by change _ + 1 < 2 ^ 32; omega)
  have hreached : count ≤ (f.memory id).iteration + 1 ↔
      (f.memory id).iteration.toNat + 1 = max count.toNat 1 := by
    rw [UInt32.le_iff_toNat_le, hnext]
    omega
  rw [countRun]
  by_cases hlast : (f.memory id).iteration.toNat + 1 = max count.toNat 1
  · rw [if_pos hlast, if_pos (hreached.mpr hlast), Frame.memory_updateMemory_self]
    exact ⟨rfl, rfl⟩
  · rw [if_neg hlast, if_neg fun h => hlast (hreached.mp h), Frame.memory_updateMemory_self]
    exact ⟨rfl, hnext⟩

end Decorator

section

variable {n : Nat} {v : Visit n} {id : String} {child : Fin n} {result : Status} {g : Frame} {k : Nat}

private theorem succ_mod {k limit : Nat} (h : 0 < limit) :
    (k + 1) % limit = if k % limit + 1 = limit then 0 else k % limit + 1 := by
  have hlt := Nat.mod_lt k h
  rw [← Nat.mod_add_mod]
  split
  · rename_i hlast
    rw [hlast, Nat.mod_self]
  · exact Nat.mod_eq_of_lt (by omega)

private theorem dvd_succ_iff {k limit : Nat} (h : 0 < limit) :
    limit ∣ k + 1 ↔ k % limit + 1 = limit := by
  rw [Nat.dvd_iff_mod_eq_zero, succ_mod h]
  split <;> simp [*]

theorem Visit.GoesOn.counts {count : UInt32}
    (h : v.GoesOn id child (fun _ f => Decorator.countRun id count .success f) result g)
    (hk : (g.memory id).iteration.toNat = k % Decorator.limitOf count) :
    v.Counts id child (Decorator.limitOf count) (k + v.results.countP (·.2.isDone)) := by
  obtain ⟨hresults, hrest⟩ := h
  have hpos := Decorator.limitOf_pos count
  refine ⟨result, hresults, ?_⟩
  by_cases hrunning : result = .running
  · rw [if_pos hrunning] at hrest
    rw [hresults, hrunning, hrest.2, if_neg (by simp)]
    exact ⟨hk, hrest.1⟩
  · rw [if_neg hrunning] at hrest
    have hdone : v.results.countP (·.2.isDone) = 1 := by
      rw [hresults]
      simpa [Status.isDone, Status.isRunning] using hrunning
    have hspec := Decorator.countRun_spec id count .success (f := g)
      (by rw [hk]; exact Nat.mod_lt k hpos)
    dsimp only at hspec
    rw [hk] at hspec
    rw [hdone, hrest.1, hrest.2, succ_mod hpos]
    by_cases hlast : k % Decorator.limitOf count + 1 = Decorator.limitOf count
    · rw [if_pos hlast] at hspec
      rw [if_pos hlast, if_pos ⟨hrunning, (dvd_succ_iff hpos).mpr hlast⟩, hspec.1, hspec.2]
      exact ⟨rfl, rfl⟩
    · rw [if_neg hlast] at hspec
      rw [if_neg hlast, if_neg fun h => hlast ((dvd_succ_iff hpos).mp h.2)]
      exact ⟨hspec.2, hspec.1⟩

private theorem untilDone_spec (awaited result : Status) {s : Settings} {f : Frame} {k : Nat}
    (hk : (f.memory s.node.id).iteration.toNat = k)
    (hlt : k < Decorator.limitOf (s.count "maxIterations")) :
    let done := Decorator.untilDone awaited s result f
    if result = awaited then done.1 = .success ∧ (done.2.memory s.node.id).iteration = 0
    else if k + 1 = Decorator.limitOf (s.count "maxIterations") then
      done.1 = awaited.invert ∧ (done.2.memory s.node.id).iteration = 0
    else done.1 = .running ∧ (done.2.memory s.node.id).iteration.toNat = k + 1 := by
  subst hk
  rw [Decorator.untilDone]
  by_cases hawaited : result = awaited
  · rw [if_pos hawaited, if_pos hawaited, Frame.memory_updateMemory_self]
    exact ⟨rfl, rfl⟩
  · rw [if_neg hawaited, if_neg hawaited]
    exact Decorator.countRun_spec s.node.id _ _ hlt

theorem Visit.GoesOn.repeatsUntil {s : Settings} {awaited : Status}
    (h : v.GoesOn s.node.id child (Decorator.untilDone awaited s) result g)
    (hawaited : awaited ≠ .running) (hk : (g.memory s.node.id).iteration.toNat = k)
    (hlt : k < Decorator.limitOf (s.count "maxIterations")) :
    let limit := Decorator.limitOf (s.count "maxIterations")
    let k' := k + v.results.countP (·.2 = awaited.invert)
    v.RepeatsUntil s.node.id child limit k' awaited ∧ (v.status = .running → k' < limit) := by
  intro limit k'
  obtain ⟨hresults, hrest⟩ := h
  by_cases hrunning : result = .running
  · subst hrunning
    rw [if_pos rfl] at hrest
    have hcount : k' = k := by
      simp [k', hresults, (invert_ne_running hawaited).symm]
    rw [hcount]
    refine ⟨⟨.running, hresults, ?_⟩, fun _ => hlt⟩
    rw [if_neg hawaited.symm, if_neg (by simp), hrest.2]
    exact ⟨hrest.1, hk⟩
  · rw [if_neg hrunning] at hrest
    have hspec := untilDone_spec awaited result hk hlt
    dsimp only at hspec
    by_cases hmet : result = awaited
    · rw [if_pos hmet] at hspec
      refine ⟨⟨result, hresults, ?_⟩, fun h => ?_⟩
      · rw [if_pos hmet, hrest.2]
        exact ⟨hrest.1.trans hspec.1, hspec.2⟩
      · rw [hrest.1, hspec.1] at h
        cases h
    · rw [if_neg hmet] at hspec
      have hcount : k' = k + 1 := by
        simp [k', hresults, eq_invert_of_ne hrunning hawaited hmet]
      rw [hcount]
      by_cases hlast : k + 1 = limit
      · rw [if_pos hlast] at hspec
        refine ⟨⟨result, hresults, ?_⟩, fun h => ?_⟩
        · rw [if_neg hmet, if_pos ⟨hrunning, hlast⟩, hrest.2]
          exact ⟨hrest.1.trans hspec.1, hspec.2⟩
        · rw [hrest.1, hspec.1] at h
          exact absurd h (invert_ne_running hawaited)
      · rw [if_neg hlast] at hspec
        refine ⟨⟨result, hresults, ?_⟩, fun _ => by omega⟩
        rw [if_neg hmet, if_neg fun h => hlast h.2, hrest.2]
        exact ⟨hrest.1.trans hspec.1, hspec.2⟩

end

namespace Index

variable {ix : Index} {p : Fin ix.size} {d : Definition} {child : Fin ix.size} {m : Moment}

theorem script_of_repeater (hd : (ix.slot p).definition = some d)
    (hkind : d.kind = .decorator .repeater) (hchild : (ix.slot p).children.head? = some child)
    (m : Moment) (f : Frame) :
    ix.script m p f = Decorator.afterRun child f fun _ f =>
      Decorator.countRun (ix.name p) ((⟨(ix.slot p).node, d⟩ : Settings).count "count") .success f := by
  rw [script_of_decorator hd hkind]
  simp only [Decorator.script, hchild]
  rfl

theorem script_of_awaiting {c : Decorator} {awaited : Status}
    (hd : (ix.slot p).definition = some d) (hkind : d.kind = .decorator c)
    (hawaited : c.awaited? = some awaited) (hchild : (ix.slot p).children.head? = some child)
    (m : Moment) (f : Frame) :
    ix.script m p f =
      Decorator.afterRun child f (Decorator.untilDone awaited ⟨(ix.slot p).node, d⟩) := by
  rw [script_of_decorator hd hkind]
  cases c with
  | repeatUntilFail | repeatUntilSuccess =>
    cases hawaited
    simp only [Decorator.script, hchild]
  | inverter | succeeder | failer | repeater | cooldown | timeout => cases hawaited

end Index

namespace Executor

section

variable {t : Tree} {e : Executor} {g : Generator} {inputs : List Input}
  {p child : Fin (Index.build t).size} {d : Definition} {i : Nat} {m : Moment}
  {v : Visit (Index.build t).size} {before limit : Nat}

/-- In any tree a repeater counts on from what it remembers, told of its visits in the order in which
they end. -/
theorem counts_ledger (he : e.currentIndex = .build t)
    (hd : ((Index.build t).slot p).definition = some d) (hkind : d.kind = .decorator .repeater)
    (hchild : ((Index.build t).slot p).children.head? = some child)
    (hlimit : Decorator.limitOf ((⟨((Index.build t).slot p).node, d⟩ : Settings).count "count") =
      limit)
    (hbefore : (e.store.state ((Index.build t).name p)).memory.iteration.toNat = before)
    (hlt : before < limit) (h : (ledgerOf (.build t) e inputs p)[i]? = some (m, v)) :
    let past := (ledgerOf (.build t) e inputs p).take i
    v.Counts ((Index.build t).name p) child limit
      (before + endings (·.isDone) (past ++ [(m, v)])) := by
  intro past
  subst hlimit
  refine ledger_law he (Index.script_of_repeater hd hkind hchild)
    (P := fun past memory => memory.iteration.toNat = (before + endings (·.isDone) past) %
      Decorator.limitOf ((⟨((Index.build t).slot p).node, d⟩ : Settings).count "count"))
    (Q := fun past x => x.2.Counts ((Index.build t).name p) child
      (Decorator.limitOf ((⟨((Index.build t).slot p).node, d⟩ : Settings).count "count"))
      (before + endings (·.isDone) (past ++ [x])))
    (hbefore.trans (Nat.mod_eq_of_lt hlt).symm) ?_ h
  intro past m v result g hgoesOn hpast
  rw [endings_concat, ← Nat.add_assoc]
  have hlaw := hgoesOn.counts hpast
  exact ⟨hlaw, hlaw.choose_spec.2.1⟩

/-- In any tree a repetition that waits for a status counts on from what it remembers, told of its visits
in the order in which they end. -/
theorem repeatsUntil_ledger (he : e.currentIndex = .build t)
    (hd : ((Index.build t).slot p).definition = some d) {c : Decorator} {awaited : Status}
    (hkind : d.kind = .decorator c) (hawaited : c.awaited? = some awaited)
    (hchild : ((Index.build t).slot p).children.head? = some child)
    (hlimit : Decorator.limitOf
      ((⟨((Index.build t).slot p).node, d⟩ : Settings).count "maxIterations") = limit)
    (hbefore : (e.store.state ((Index.build t).name p)).memory.iteration.toNat = before)
    (hlt : before < limit) (h : (ledgerOf (.build t) e inputs p)[i]? = some (m, v)) :
    let past := (ledgerOf (.build t) e inputs p).take i
    v.RepeatsUntil ((Index.build t).name p) child limit
      (carried before past + endings (· = awaited.invert) (sinceEnded past ++ [(m, v)]))
      awaited := by
  intro past
  have hrunning := Decorator.awaited_ne_running hawaited
  refine ledger_law he (Index.script_of_awaiting hd hkind hawaited hchild)
    (P := fun past memory =>
      memory.iteration.toNat =
        carried before past + endings (· = awaited.invert) (sinceEnded past) ∧
      carried before past + endings (· = awaited.invert) (sinceEnded past) < limit)
    (Q := fun past x => x.2.RepeatsUntil ((Index.build t).name p) child limit
      (carried before past + endings (· = awaited.invert) (sinceEnded past ++ [x])) awaited)
    ⟨hbefore, hlt⟩ ?_ h
  rintro past m v result g hgoesOn ⟨hpast, hlt⟩
  subst hlimit
  obtain ⟨hlaw, hbelow⟩ := Visit.GoesOn.repeatsUntil (s := ⟨((Index.build t).slot p).node, d⟩)
    hgoesOn hrunning hpast hlt
  rw [Nat.add_assoc, ← endings_concat (· = awaited.invert) (sinceEnded past) (m, v)] at hlaw hbelow
  exact ⟨hlaw, hlaw.next hrunning (Decorator.limitOf_pos _) hbelow⟩

private theorem repeats_chronicle (hfree : (Index.build t).CycleFree)
    (hd : ((Index.build t).slot p).definition = some d) (hkind : d.kind = .decorator .repeater)
    (hchild : ((Index.build t).slot p).children.head? = some child)
    (h : (chronicleOf (.build t) (ofGenerator t g) inputs p)[i]? = some (m, v)) :
    let past := (chronicleOf (.build t) (ofGenerator t g) inputs p).take i
    v.Repeats ((Index.build t).name p) child
      (Decorator.limitOf ((⟨((Index.build t).slot p).node, d⟩ : Settings).count "count"))
      (endings (·.isDone) (past ++ [(m, v)])) := by
  intro past
  obtain ⟨hp, room, f, hvisit⟩ := mem_chronicleOf (List.mem_of_getElem? h)
  rw [← ledgerOf_eq_chronicleOf hfree hp] at h
  have hbefore : ((ofGenerator t g).store.state ((Index.build t).name p)).memory.iteration.toNat = 0 :=
    rfl
  have hcounts := counts_ledger rfl hd hkind hchild rfl hbefore (Decorator.limitOf_pos _) h
  dsimp only at hcounts
  rw [ledgerOf_eq_chronicleOf hfree hp, Nat.zero_add] at hcounts
  obtain ⟨result, hresults, hcount, hstatus⟩ := hcounts
  refine ⟨result, hresults, hcount, ?_⟩
  by_cases hrunning : result = .running
  · subst hrunning
    dsimp only at hvisit
    subst hvisit
    have havoids := Index.avoids_child hfree hp (List.mem_of_head? hchild)
    obtain ⟨result, f', ⟨hresults', hrest⟩, hkeep⟩ := Index.visit_of_afterRun havoids
      (Index.script_of_repeater hd hkind hchild m ((Index.build t).enter m room p f))
    obtain rfl : result = .running := by simpa [hresults] using hresults'.symm
    rw [if_pos rfl] at hrest ⊢
    rw [hrest.2, Frame.memory, hkeep]
    exact ⟨hrest.1, Index.memory_enter m room p f⟩
  · rw [if_neg hrunning]
    exact hstatus.trans (if_congr (and_iff_right hrunning) rfl rfl)

private theorem repeatsUntil_chronicle (hfree : (Index.build t).CycleFree)
    (hd : ((Index.build t).slot p).definition = some d) {c : Decorator} {awaited : Status}
    (hkind : d.kind = .decorator c) (hawaited : c.awaited? = some awaited)
    (hchild : ((Index.build t).slot p).children.head? = some child)
    (h : (chronicleOf (.build t) (ofGenerator t g) inputs p)[i]? = some (m, v)) :
    let past := (chronicleOf (.build t) (ofGenerator t g) inputs p).take i
    v.RepeatsUntil ((Index.build t).name p) child
      (Decorator.limitOf ((⟨((Index.build t).slot p).node, d⟩ : Settings).count "maxIterations"))
      (endings (· = awaited.invert) (sinceEnded past ++ [(m, v)])) awaited := by
  intro past
  have hp := (mem_chronicleOf (List.mem_of_getElem? h)).1
  rw [← ledgerOf_eq_chronicleOf hfree hp] at h
  have hbefore : ((ofGenerator t g).store.state ((Index.build t).name p)).memory.iteration.toNat = 0 :=
    rfl
  have hlaw :=
    repeatsUntil_ledger rfl hd hkind hawaited hchild rfl hbefore (Decorator.limitOf_pos _) h
  dsimp only at hlaw
  rwa [ledgerOf_eq_chronicleOf hfree hp, carried_zero, Nat.zero_add] at hlaw

end

/-- In a run that starts without states, a repeater counts all runs that its child has ended under it,
modulo its limit, and a repetition that waits for a status those that ended otherwise since it ended
itself. -/
theorem counts_of_repetition {t : Tree} (hfree : (Index.build t).CycleFree) (g : Generator)
    (inputs : List Input) {p : Fin (Index.build t).size} {d : Definition}
    (hd : ((Index.build t).slot p).definition = some d)
    {child : Fin (Index.build t).size} (hchild : ((Index.build t).slot p).children.head? = some child)
    {i : Nat} {m : Moment} {v : Visit (Index.build t).size}
    (h : (chronicleOf (.build t) (ofGenerator t g) inputs p)[i]? = some (m, v)) :
    let id := (Index.build t).name p
    let past := (chronicleOf (.build t) (ofGenerator t g) inputs p).take i
    let s : Settings := ⟨((Index.build t).slot p).node, d⟩
    (d.kind = .decorator .repeater →
      v.Repeats id child (max (s.count "count").toNat 1) (endings (·.isDone) (past ++ [(m, v)]))) ∧
      ∀ c awaited, d.kind = .decorator c → c.awaited? = some awaited →
        v.RepeatsUntil id child (max (s.count "maxIterations").toNat 1)
          (endings (· = awaited.invert) (sinceEnded past ++ [(m, v)])) awaited :=
  ⟨fun hkind => repeats_chronicle hfree hd hkind hchild h,
    fun _ _ hkind hawaited => repeatsUntil_chronicle hfree hd hkind hawaited hchild h⟩

/-- A repeater that counts two failures, and a repetition that gives up after two: each ends in its
second tick and starts anew. -/
theorem counts_of_repetition_twice :
    let tree (type limit : String) : Tree :=
      { Tree.single type ["leaf"] with
        nodes := [⟨"root", type, .ofList [(limit, .integer 2)]⟩, ⟨"leaf", "never", ∅⟩] }
    let i : Input := ⟨"actor", 0.5, ∅, ∅⟩
    let t := tree "repeater" "count"
    let ticks := chronicleOf (.build t) (ofGenerator t ⟨0⟩) [i, i, i] ⟨0, by decide⟩
    let leaf : Fin (Index.build t).size := ⟨1, by decide⟩
    let t' := tree "repeat_until_success" "maxIterations"
    let ticks' := chronicleOf (.build t') (ofGenerator t' ⟨0⟩) [i, i, i] ⟨0, by decide⟩
    let leaf' : Fin (Index.build t').size := ⟨1, by decide⟩
    ticks.map (·.2.status) = [.running, .success, .running] ∧
      ticks'.map (·.2.status) = [.running, .failure, .running] ∧
      (∃ x, ticks[2]? = some x ∧ x.2.Repeats "root" leaf 2 3) ∧
      ∃ x, ticks'[2]? = some x ∧ x.2.RepeatsUntil "root" leaf' 2 1 .success := by
  intro tree i t ticks leaf t' ticks' leaf'
  have hvalid : t.fault? = none ∧ t'.fault? = none := by decide +kernel
  have hfree := Index.cycleFree_of_acyclic (Tree.fault?_eq_none_iff.mp hvalid.1).acyclic
  have hfree' := Index.cycleFree_of_acyclic (Tree.fault?_eq_none_iff.mp hvalid.2).acyclic
  let d : Definition := ⟨"repeater", .decorator .repeater, [⟨"count", .number 3⟩]⟩
  let d' : Definition :=
    ⟨"repeat_until_success", .decorator .repeatUntilSuccess, [⟨"maxIterations", .number 100⟩]⟩
  have hlimit : (⟨((Index.build t).slot ⟨0, by decide⟩).node, d⟩ : Settings).count "count" = 2 := by
    decide +kernel
  have hlimit' : (⟨((Index.build t').slot ⟨0, by decide⟩).node, d'⟩ : Settings).count
      "maxIterations" = 2 := by decide +kernel
  have hleaf : ((Index.build t).slot ⟨0, by decide⟩).children.head? = some leaf := by decide +kernel
  have hleaf' : ((Index.build t').slot ⟨0, by decide⟩).children.head? = some leaf' := by
    decide +kernel
  have hcount : (ticks[2]?).map (fun x => endings (·.isDone) (ticks.take 2 ++ [x])) = some 3 := by
    decide +kernel
  have hcount' : (ticks'[2]?).map (fun x =>
      endings (· = .failure) (sinceEnded (ticks'.take 2) ++ [x])) = some 1 := by decide +kernel
  obtain ⟨⟨m, v⟩, hx, hthree⟩ := Option.map_eq_some_iff.mp hcount
  obtain ⟨⟨m', v'⟩, hy, hone⟩ := Option.map_eq_some_iff.mp hcount'
  have hrepeats := (counts_of_repetition hfree ⟨0⟩ [i, i, i] (d := d) rfl hleaf hx).1 rfl
  have huntil :=
    (counts_of_repetition hfree' ⟨0⟩ [i, i, i] (d := d') rfl hleaf' hy).2 _ _ rfl rfl
  rw [hlimit, hthree] at hrepeats
  rw [hlimit', Status.invert, hone] at huntil
  exact ⟨by decide +kernel, by decide +kernel, ⟨_, hx, hrepeats⟩, _, hy, huntil⟩

end Executor

end BehaviorTree
