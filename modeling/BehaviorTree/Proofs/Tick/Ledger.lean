import BehaviorTree.Proofs.Tick.Chronicle

/-!
# Ledgers

The visits of a node over a whole run of its tree, in the order in which they end. Where a cycle can be
reached, a node may be ticked within its own tick, so that a visit does not meet the state that the one
before left. But what a node does once its child has been ticked meets the memory that the visit that
ended before left.
-/

namespace BehaviorTree

section Laws

variable {α : Type} {Q : List α → α → Prop} {past xs ys : List α}

/-- Whether a law holds of each entry of a list, told of the entries before it. -/
def Throughout (Q : List α → α → Prop) : List α → List α → Prop
  | _, [] => True
  | past, x :: rest => Q past x ∧ Throughout Q (past ++ [x]) rest

theorem Throughout.append (hxs : Throughout Q past xs) (hys : Throughout Q (past ++ xs) ys) :
    Throughout Q past (xs ++ ys) := by
  induction xs generalizing past with
  | nil => simpa using hys
  | cons x rest ih =>
    refine ⟨hxs.1, ih hxs.2 ?_⟩
    rwa [List.append_assoc]

theorem Throughout.of_getElem? (h : Throughout Q past xs) {i : Nat} {x : α} (hx : xs[i]? = some x) :
    Q (past ++ xs.take i) x := by
  induction xs generalizing past i with
  | nil => cases hx
  | cons y rest ih =>
    cases i with
    | zero =>
      obtain rfl : y = x := Option.some.inj hx
      rw [List.take_zero, List.append_nil]
      exact h.1
    | succ i =>
      have hrest := ih h.2 hx
      rwa [List.append_assoc] at hrest

end Laws

def ended (journal : Array Entry) : List (String × Status) :=
  journal.toList.filterMap fun
    | .ended id status => some (id, status)
    | _ => none

private theorem ended_push (journal : Array Entry) (entry : Entry) :
    ended (journal.push entry) = ended journal ++ ended #[entry] := by
  simp [ended]

namespace Index

/-- The ticks of nodes during the tick of the node at a position, in the order in which they end. -/
def visitsByEnd (ix : Index) (m : Moment) :
    (room : Nat) → Fin ix.size → Frame → List (Visit ix.size)
  | 0, _, _ => []
  | room + 1, p, f =>
    ((ix.visit m room p f).calls.flatMap fun c => visitsByEnd ix m room c.child c.before) ++
      [ix.visit m room p f]

theorem visitsByEnd_perm (ix : Index) (m : Moment) (room : Nat) (p : Fin ix.size) (f : Frame) :
    (ix.visitsByEnd m room p f).Perm (ix.visits m room p f) := by
  induction room generalizing p f with
  | zero => exact .nil
  | succ room ih =>
    rw [visitsByEnd, visits]
    refine (List.perm_append_singleton _ _).trans (.cons _ ?_)
    exact List.Perm.flatMap_left _ fun c _ => ih c.child c.before

/-- The visits of a tick end in the order in which it tells the journal of their ends. -/
theorem ended_tick (ix : Index) (m : Moment) (room : Nat) (p : Fin ix.size) (f : Frame) :
    ended (tick ix m room p f).2.journal =
      ended f.journal ++ (ix.visitsByEnd m room p f).map fun v => (ix.name v.node, v.status) := by
  induction room generalizing p f with
  | zero =>
    rw [tick_zero, visitsByEnd, Frame.note, ended_push]
    rfl
  | succ room ih =>
    have hscript := Script.run_tells (r := fun f xs g => ended g.journal = ended f.journal ++ xs)
      (by intro f g h xs ys hfg hgh; rw [hgh, hfg, List.append_assoc]) (fun c _ f => ih c f)
      (filterMap_stretches (fun _ _ => rfl) (fun _ => rfl) ix m p (ix.enter m room p f))
      (calls_script ix m p _)
    have henter : ended (ix.enter m room p f).journal = ended f.journal :=
      (ended_push f.journal _).trans (List.append_nil _)
    have hleave : ∀ status g, ended (ix.leave p status g).journal =
        ended g.journal ++ [(ix.name p, status)] := fun status g => ended_push _ _
    rw [visitsByEnd, List.map_append, List.map_flatMap, visit, tick_succ]
    dsimp only
    rw [hleave, hscript, henter, List.append_assoc]
    rfl

end Index

section Memories

variable {n : Nat} {p : Fin n} {P : List (Moment × Visit n) → Memory → Prop}
  {Q : List (Moment × Visit n) → Moment × Visit n → Prop} {s s' s'' : Memory}
  {xs ys : List (Moment × Visit n)}

/-- Whether some ticks, between two memories of a node, obey a law when they are its own, and carry over
what the memory tells of the ticks of the node before. -/
def Carries (p : Fin n) (P : List (Moment × Visit n) → Memory → Prop)
    (Q : List (Moment × Visit n) → Moment × Visit n → Prop) (s : Memory)
    (ticks : List (Moment × Visit n)) (s' : Memory) : Prop :=
  ∀ past, P past s → Throughout Q past (ticks.filter (·.2.node = p)) ∧
    P (past ++ ticks.filter (·.2.node = p)) s'

theorem Carries.append (hxs : Carries p P Q s xs s') (hys : Carries p P Q s' ys s'') :
    Carries p P Q s (xs ++ ys) s'' := by
  intro past hpast
  obtain ⟨hlawful, hmid⟩ := hxs past hpast
  obtain ⟨hlawful', hend⟩ := hys _ hmid
  rw [List.filter_append, ← List.append_assoc]
  exact ⟨hlawful.append hlawful', hend⟩

theorem Carries.of_filter (h : xs.filter (·.2.node = p) = []) : Carries p P Q s xs s := by
  intro past hpast
  rw [h, List.append_nil]
  exact ⟨trivial, hpast⟩

theorem Carries.single {x : Moment × Visit n} (hx : x.2.node = p)
    (h : ∀ past, P past s → Q past x ∧ P (past ++ [x]) s') : Carries p P Q s [x] s' := by
  intro past hpast
  obtain ⟨hlaw, hnext⟩ := h past hpast
  rw [List.filter_cons_of_pos (by exact decide_eq_true hx), List.filter_nil]
  exact ⟨⟨hlaw, trivial⟩, hnext⟩

end Memories

namespace Index

variable {t : Tree} {p q child : Fin (build t).size} {done : Status → Frame → Status × Frame}
  {P : List (Moment × Visit (build t).size) → Memory → Prop}
  {Q : List (Moment × Visit (build t).size) → Moment × Visit (build t).size → Prop}

/-- What a node that does something with the result of a child remembers, and the law that its visits
obey, is carried over by any tick if it is carried over by what the node does once its child has been
ticked. -/
theorem carries_tick (hp : (build t).Reachable p)
    (hscript : ∀ m f, (build t).script m p f = Decorator.afterRun child f done)
    (hstep : ∀ past m v result g, v.GoesOn ((build t).name p) child done result g →
      P past (g.memory ((build t).name p)) →
        Q past (m, v) ∧ P (past ++ [(m, v)]) (v.after.memory ((build t).name p)))
    (m : Moment) (room : Nat) (hq : (build t).Reachable q) (f : Frame) :
    Carries p P Q (f.memory ((build t).name p)) (((build t).visitsByEnd m room q f).map (m, ·))
      ((tick (build t) m room q f).2.memory ((build t).name p)) := by
  induction room generalizing q f with
  | zero => exact .of_filter rfl
  | succ room ih =>
    have hticks : ∀ c, (build t).Edge q c → ∀ f,
        Carries p P Q (f.memory ((build t).name p)) (((build t).visitsByEnd m room c f).map (m, ·))
          ((tick (build t) m room c f).2.memory ((build t).name p)) :=
      fun c hc => ih (reachable_step hq hc)
    have hself : (tick (build t) m (room + 1) q f).2 = ((build t).visit m room q f).after := rfl
    rw [visitsByEnd, List.map_append, List.map_flatMap, hself]
    by_cases heq : q = p
    · subst heq
      have hcalls : ((build t).visit m room q f).calls =
          [⟨child, (build t).enter m room q f,
            (tick (build t) m room child ((build t).enter m room q f)).1,
            (tick (build t) m room child ((build t).enter m room q f)).2⟩] := by
        rw [visit, hscript, Decorator.calls_afterRun]
      have hchild := hticks child (edge_of_mem_calls (hcalls ▸ List.mem_cons_self))
        ((build t).enter m room q f)
      rw [memory_enter] at hchild
      rw [hcalls, List.flatMap_singleton]
      exact hchild.append (.single rfl fun past => hstep past m _ _ _ (visit_goesOn (hscript m _)))
    · have hne : (build t).name p ≠ (build t).name q :=
        fun h => heq (name_injective_of_reachable hp hq h).symm
      have hmemory : ∀ {f g : Frame}, g.state ((build t).name p) = f.state ((build t).name p) →
          Carries p P Q (f.memory ((build t).name p)) [] (g.memory ((build t).name p)) := by
        intro f g h
        rw [Frame.memory, Frame.memory, h]
        exact .of_filter rfl
      have henter := hmemory (Frame.state_congr (get?_enter_of_ne m room f hne))
      have hrun := Script.run_tells (r := fun f xs g =>
          Carries p P Q (f.memory ((build t).name p)) xs (g.memory ((build t).name p)))
        Carries.append hticks ((state_stretches hne ((build t).enter m room q f)).imp fun _ _ => hmemory)
        (calls_script _ m q _)
      have hleave : ((build t).visit m room q f).after.memory ((build t).name p) =
          (Script.run (tick (build t) m room)
            ((build t).script m q ((build t).enter m room q f))).2.memory ((build t).name p) := by
        rw [visit, tick_succ]
        exact congrArg (·.memory) (Frame.state_congr (get?_leave_of_ne _ hne _))
      rw [hleave]
      refine henter.append (hrun.append (.of_filter ?_))
      exact List.filter_cons_of_neg (by rw [decide_eq_true_eq]; exact heq)

theorem filter_visitsByEnd (hfree : (build t).CycleFree) (hp : (build t).Reachable p) (m : Moment)
    (room : Nat) (q : Fin (build t).size) (f : Frame) :
    ((build t).visitsByEnd m room q f).filter (·.node = p) =
      ((build t).visits m room q f).filter (·.node = p) := by
  induction room generalizing q f with
  | zero => rfl
  | succ room ih =>
    by_cases heq : q = p
    · subst heq
      have hperm := ((build t).visitsByEnd_perm m (room + 1) q f).filter (·.node = q)
      rw [visits_self hfree hp] at hperm ⊢
      exact List.perm_singleton.mp hperm
    · have hother : decide (((build t).visit m room q f).node = p) = false := decide_eq_false heq
      rw [visitsByEnd, visits, List.filter_append, List.filter_cons_of_neg (by simpa using hother),
        List.filter_cons_of_neg (by simpa using hother), List.filter_nil, List.append_nil,
        List.filter_flatMap, List.filter_flatMap]
      simp only [ih]

end Index

namespace Executor

def visitsByEnd (e : Executor) (ix : Index) (i : Input) : List (Visit ix.size) :=
  match ix.root with
  | none => []
  | some root => ix.visitsByEnd ⟨i.agent, clampStep i.dt⟩ (ix.size + 1) root (e.start i.scene)

/-- The visits during some ticks of a tree, each with its moment, in the order in which they end. -/
def ledger (ix : Index) : Executor → List Input → List (Moment × Visit ix.size)
  | _, [] => []
  | e, i :: rest =>
    (e.visitsByEnd ix i).map (⟨i.agent, clampStep i.dt⟩, ·) ++
      ledger ix (e.execute i.agent i.dt i.scene).executor rest

def ledgerOf (ix : Index) (e : Executor) (inputs : List Input) (p : Fin ix.size) :
    List (Moment × Visit ix.size) :=
  (ledger ix e inputs).filter (·.2.node = p)

theorem ended_execute (e : Executor) (i : Input) :
    ended (e.execute i.agent i.dt i.scene).journal =
      (e.visitsByEnd e.currentIndex i).map fun v => (e.currentIndex.name v.node, v.status) := by
  rw [visitsByEnd]
  cases hroot : e.currentIndex.root with
  | none =>
    rw [execute_of_rootless hroot]
    rfl
  | some root =>
    rw [execute_of_root hroot]
    exact (Index.ended_tick _ _ _ root _).trans (List.nil_append _)

theorem ledger_perm (ix : Index) (e : Executor) (inputs : List Input) :
    (ledger ix e inputs).Perm (chronicle ix e inputs) := by
  induction inputs generalizing e with
  | nil => exact .nil
  | cons i rest ih =>
    refine List.Perm.append (.map _ ?_) (ih _)
    rw [visitsByEnd, visits]
    cases ix.root with
    | none => exact .nil
    | some root => exact ix.visitsByEnd_perm _ _ root _

/-- Where no cycle can be reached, the visits of a node end in the order in which they begin. -/
theorem ledgerOf_eq_chronicleOf {t : Tree} (hfree : (Index.build t).CycleFree)
    {p : Fin (Index.build t).size} (hp : (Index.build t).Reachable p) (e : Executor)
    (inputs : List Input) :
    ledgerOf (.build t) e inputs p = chronicleOf (.build t) e inputs p := by
  rw [ledgerOf, chronicleOf]
  induction inputs generalizing e with
  | nil => rfl
  | cons i rest ih =>
    have htick : (e.visitsByEnd (.build t) i).filter (·.node = p) =
        (e.visits (.build t) i).filter (·.node = p) := by
      rw [visitsByEnd, visits]
      cases (Index.build t).root with
      | none => rfl
      | some root => exact Index.filter_visitsByEnd hfree hp _ _ root _
    rw [ledger, chronicle, List.filter_append, List.filter_append, List.filter_map, List.filter_map]
    exact congrArg₂ (· ++ ·) (congrArg (List.map _) htick) (ih _)

theorem reachable_of_mem_ledgerOf {ix : Index} {e : Executor} {inputs : List Input}
    {p : Fin ix.size} {x : Moment × Visit ix.size} (h : x ∈ ledgerOf ix e inputs p) :
    ix.Reachable p := by
  obtain ⟨hmem, hnode⟩ := List.mem_filter.mp h
  rw [← of_decide_eq_true hnode]
  exact (mem_chronicle ((ledger_perm ix e inputs).mem_iff.mp hmem)).1

section

variable {t : Tree} {e : Executor} {p child : Fin (Index.build t).size}
  {done : Status → Frame → Status × Frame}
  {P : List (Moment × Visit (Index.build t).size) → Memory → Prop}
  {Q : List (Moment × Visit (Index.build t).size) → Moment × Visit (Index.build t).size → Prop}

private theorem carries_ledger (he : e.currentIndex = .build t) (hp : (Index.build t).Reachable p)
    (hscript : ∀ m f, (Index.build t).script m p f = Decorator.afterRun child f done)
    (hstep : ∀ past m v result g, v.GoesOn ((Index.build t).name p) child done result g →
      P past (g.memory ((Index.build t).name p)) →
        Q past (m, v) ∧ P (past ++ [(m, v)]) (v.after.memory ((Index.build t).name p)))
    (inputs : List Input) :
    Carries p P Q (e.store.state ((Index.build t).name p)).memory (ledger (.build t) e inputs)
      ((e.after inputs).store.state ((Index.build t).name p)).memory := by
  induction inputs generalizing e with
  | nil => exact .of_filter rfl
  | cons i rest ih =>
    have hrest := ih ((currentIndex_execute e i.agent i.dt i.scene).trans he)
    refine Carries.append ?_ hrest
    rw [visitsByEnd]
    cases hroot : (Index.build t).root with
    | none =>
      rw [execute_of_rootless (by rw [he]; exact hroot)]
      exact .of_filter rfl
    | some root =>
      rw [execute_of_index he hroot]
      exact Index.carries_tick hp hscript hstep _ _ ⟨root, hroot, .refl⟩ (e.start i.scene)

/-- A law of the visits of a node that does something with the result of a child holds in any tree, of
each visit told of those that ended before it, if it follows from what holds of the memory that the tick
of the child leaves, and so does the same of the memory that the visit leaves. -/
theorem ledger_law (he : e.currentIndex = .build t)
    (hscript : ∀ m f, (Index.build t).script m p f = Decorator.afterRun child f done)
    (start : P [] (e.store.state ((Index.build t).name p)).memory)
    (step : ∀ past m v result g, v.GoesOn ((Index.build t).name p) child done result g →
      P past (g.memory ((Index.build t).name p)) →
        Q past (m, v) ∧ P (past ++ [(m, v)]) (v.after.memory ((Index.build t).name p)))
    {inputs : List Input} {i : Nat} {x : Moment × Visit (Index.build t).size}
    (h : (ledgerOf (.build t) e inputs p)[i]? = some x) :
    Q ((ledgerOf (.build t) e inputs p).take i) x := by
  have hp := reachable_of_mem_ledgerOf (List.mem_of_getElem? h)
  exact (carries_ledger he hp hscript step inputs [] start).1.of_getElem? h

end

end Executor

end BehaviorTree
