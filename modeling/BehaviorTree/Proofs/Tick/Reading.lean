import BehaviorTree.Tick.Basic

/-!
# What nodes read

A node reads the parameters of its kind and no others, and nothing but their values and numbers. So
nodes of one name and one type that agree on these are dispatched the same.
-/

namespace BehaviorTree

section Reads

def Composite.reads : Composite → List String
  | parallel => ["successPolicy", "failurePolicy"]
  | sequence | selector | randomSelector | randomSequence => []

def Decorator.reads : Decorator → List String
  | repeater => ["count"]
  | repeatUntilFail | repeatUntilSuccess => ["maxIterations"]
  | cooldown => ["duration"]
  | timeout => ["timeout"]
  | inverter | succeeder | failer => []

def Action.reads : Action → List String
  | move => ["targetX", "targetY", "speed", "arrivalThreshold"]
  | attack => ["targetEntity", "damage", "attackRange", "attackCooldown"]
  | flee => ["targetEntity", "speed", "safeDistance"]
  | patrol => ["waypoints", "speed", "waitTime", "arrivalThreshold"]
  | idle | wait => ["duration"]
  | log => ["message", "level"]
  | setBlackboard => ["key", "value"]

def Condition.reads : Condition → List String
  | always | never | isMoving => []
  | random => ["threshold"]
  | distance | inRange | targetHealth => ["targetEntity", "threshold", "comparison"]
  | health => ["threshold", "comparison"]
  | hasTarget | canSee => ["targetEntity"]
  | checkBlackboard => ["key", "expectedValue", "comparison"]

/-- The parameters that nodes of a kind read. -/
def Kind.reads : Kind → List String
  | .composite c => c.reads
  | .decorator d => d.reads
  | .action a => a.reads
  | .condition c => c.reads

/-- Nodes read only parameters that their types have. -/
theorem Catalog.parameter?_of_reads {type : String} {d : Definition} (h : lookup type = some d)
    {name : String} (hname : name ∈ d.kind.reads) : ∃ p, d.parameter? name = some p := by
  have hall : ∀ d ∈ definitions, ∀ name ∈ d.kind.reads, (d.parameter? name).isSome := by
    decide +kernel
  exact Option.isSome_iff_exists.mp (hall d (List.mem_of_find?_eq_some h) name hname)

end Reads

/-- Whether nodes of one name and one definition have the same values and numbers for some
parameters. -/
structure Settings.AgreeOn (names : List String) (s s' : Settings) : Prop where
  id : s.node.id = s'.node.id
  definition : s.definition = s'.definition
  value : ∀ name ∈ names, s.value? name = s'.value? name
  number : ∀ name ∈ names, s.number name = s'.number name

variable {names : List String} {s s' : Settings} {m : Moment} {f : Frame}

namespace Settings.AgreeOn

theorem refl (names : List String) (s : Settings) : AgreeOn names s s :=
  ⟨rfl, rfl, fun _ _ => rfl, fun _ _ => rfl⟩

theorem text (h : AgreeOn names s s') (name : String) (hname : name ∈ names) :
    s.text name = s'.text name := by
  rw [Settings.text, Settings.text, h.value name hname]

theorem count (h : AgreeOn names s s') (name : String) (hname : name ∈ names) :
    s.count name = s'.count name := by
  rw [Settings.count, Settings.count, h.number name hname]

theorem comparison (h : AgreeOn names s s') (hname : "comparison" ∈ names) :
    s.comparison = s'.comparison := by
  rw [Settings.comparison, Settings.comparison, h.text "comparison" hname, Settings.default?,
    Settings.default?, h.definition]

end Settings.AgreeOn

section Leaves

theorem Action.run_congr {a : Action} (h : s.AgreeOn a.reads s') (me : Entity) :
    a.run m s me f = a.run m s' me f := by
  cases a with
  | move =>
    simp only [run, moveTo, h.number "targetX" (by decide), h.number "targetY" (by decide),
      h.number "speed" (by decide), h.number "arrivalThreshold" (by decide)]
  | attack =>
    simp only [run, strike, coolingDown, h.id, h.text "targetEntity" (by decide),
      h.number "damage" (by decide), h.number "attackRange" (by decide),
      h.number "attackCooldown" (by decide)]
  | flee =>
    simp only [run, fleeFrom, h.text "targetEntity" (by decide), h.number "speed" (by decide),
      h.number "safeDistance" (by decide)]
  | patrol =>
    simp only [run, walkRoute, h.id, h.text "waypoints" (by decide), h.number "speed" (by decide),
      h.number "waitTime" (by decide), h.number "arrivalThreshold" (by decide)]
  | idle | wait => simp only [run, pause, h.id, h.number "duration" (by decide)]
  | log =>
    simp only [run, sendMessage, h.id, h.text "message" (by decide), h.text "level" (by decide)]
  | setBlackboard =>
    simp only [run, setVariables, h.text "key" (by decide), h.value "value" (by decide)]

theorem Condition.measured_congr (h : s.AgreeOn names s') (hthreshold : "threshold" ∈ names)
    (hcomparison : "comparison" ∈ names) : measured s = measured s' := by
  funext x
  rw [measured, measured, h.number "threshold" hthreshold, h.comparison hcomparison]

theorem Condition.run_congr {c : Condition} (h : s.AgreeOn c.reads s') :
    c.run m s f = c.run m s' f := by
  cases c with
  | always | never | isMoving => rfl
  | random => simp only [run, draw, h.number "threshold" (by decide)]
  | distance | inRange =>
    have hmeasured := measured_congr h (by decide) (by decide)
    simp only [run, holds, pair?, hmeasured, h.text "targetEntity" (by decide)]
  | health =>
    have hmeasured := measured_congr h (by decide) (by decide)
    simp only [run, holds, hmeasured]
  | targetHealth =>
    have hmeasured := measured_congr h (by decide) (by decide)
    simp only [run, holds, hmeasured, h.text "targetEntity" (by decide)]
  | hasTarget => simp only [run, holds, h.text "targetEntity" (by decide)]
  | canSee => simp only [run, holds, pair?, h.text "targetEntity" (by decide)]
  | checkBlackboard =>
    simp only [run, holds, checks, h.text "key" (by decide), h.value "expectedValue" (by decide),
      h.comparison (by decide)]

end Leaves

section Parents

variable {n : Nat} {children : List (Fin n)} {tick : Ticker n}

theorem Composite.run_congr {c : Composite} (h : s.AgreeOn c.reads s') :
    c.run s children tick f = c.run s' children tick f := by
  cases c with
  | parallel =>
    simp only [run, abreast, h.text "successPolicy" (by decide),
      h.text "failurePolicy" (by decide)]
  | sequence | selector | randomSelector | randomSequence => simp only [run, h.id]

theorem Decorator.run_congr {d : Decorator} (h : s.AgreeOn d.reads s') :
    d.run m s children tick f = d.run m s' children tick f := by
  cases d with
  | inverter | succeeder | failer => cases children <;> rfl
  | repeater =>
    cases children with
    | nil => rfl
    | cons child rest =>
      simp only [run, List.head?_cons, repeatTimes, h.id, h.count "count" (by decide)]
  | repeatUntilFail | repeatUntilSuccess =>
    cases children with
    | nil => rfl
    | cons child rest =>
      simp only [run, List.head?_cons, repeatUntil, h.id, h.count "maxIterations" (by decide)]
  | cooldown => simp only [run, gate, h.id, h.number "duration" (by decide)]
  | timeout => simp only [run, limitTime, h.id, h.number "timeout" (by decide)]

/-- Nodes are dispatched by nothing but their names, their definitions and what they read. -/
theorem dispatch_congr (h : s.AgreeOn s.definition.kind.reads s') :
    dispatch m s children tick f = dispatch m s' children tick f := by
  rw [dispatch, dispatch, ← h.definition]
  cases hkind : s.definition.kind with
  | composite c =>
    rw [hkind] at h
    exact Composite.run_congr h
  | decorator d =>
    rw [hkind] at h
    exact Decorator.run_congr h
  | action a =>
    rw [hkind] at h
    cases f.world.get? m.agent with
    | none => rfl
    | some me => exact Action.run_congr h me
  | condition c =>
    rw [hkind] at h
    exact Condition.run_congr h

end Parents

end BehaviorTree
