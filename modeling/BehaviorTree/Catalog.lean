import BehaviorTree.Json.Printer
import BehaviorTree.Record

/-!
# The catalog of node types

The kinds of nodes, and for each kind its type name, its parameters with their defaults, and how
many children it takes: a composite one or more, a decorator exactly one, a leaf none.
-/

namespace BehaviorTree

/-- Nodes that tick several children. -/
inductive Composite where
  | sequence | selector | parallel | randomSelector | randomSequence
deriving DecidableEq

/-- Nodes that tick one child and change what it means. -/
inductive Decorator where
  | inverter | succeeder | failer | repeater | repeatUntilFail | repeatUntilSuccess | cooldown
  | timeout
deriving DecidableEq

/-- Leaves that act for the acting entity. -/
inductive Action where
  | move | attack | flee | patrol | idle | wait | log | setBlackboard
deriving DecidableEq

/-- Leaves that only look. -/
inductive Condition where
  | always | never | random | distance | inRange | health | targetHealth | hasTarget | isMoving
  | canSee | checkBlackboard
deriving DecidableEq

/-- What a node does when it is ticked. -/
inductive Kind where
  | composite (c : Composite)
  | decorator (d : Decorator)
  | action (a : Action)
  | condition (c : Condition)
deriving DecidableEq

/-- The four families of kinds. -/
inductive Category where
  | composite | decorator | action | condition
deriving DecidableEq

namespace Category

def name : Category → String
  | composite => "composite"
  | decorator => "decorator"
  | action => "action"
  | condition => "condition"

def ofName? (name : String) : Option Category :=
  [composite, decorator, action, condition].find? (·.name == name)

@[simp] theorem ofName?_name (c : Category) : ofName? c.name = some c := by cases c <;> rfl

def document (c : Category) : Document := .string c.name

def read (d : Document) : Option Category := d.alternative?.bind ofName?

def minChildren : Category → Nat
  | composite | decorator => 1
  | action | condition => 0

/-- The most children that a node takes, if there is a limit. -/
def maxChildren : Category → Option Nat
  | composite => none
  | decorator => some 1
  | action | condition => some 0

/-- Whether a node takes some number of children. -/
def accepts (c : Category) (count : Nat) : Bool :=
  c.minChildren ≤ count && c.maxChildren.all (count ≤ ·)

end Category

def Kind.category : Kind → Category
  | composite _ => .composite
  | decorator _ => .decorator
  | action _ => .action
  | condition _ => .condition

/-- What a parameter holds, with its default. -/
inductive ParameterType where
  | number (default : Float)
  | text (default : String)
  | choice (options : List String) (default : String)
deriving DecidableEq

/-- A named parameter of a node type. -/
structure Parameter where
  name : String
  type : ParameterType
deriving DecidableEq

/-- The value that a parameter has where a node sets none. -/
def Parameter.default (p : Parameter) : Json :=
  match p.type with
  | .number x => .double x
  | .text s | .choice _ s => .string s

/-- A node type. -/
structure Definition where
  typeName : String
  kind : Kind
  parameters : List Parameter
deriving DecidableEq

namespace Definition

def category (d : Definition) : Category := d.kind.category

def parameter? (d : Definition) (name : String) : Option Parameter :=
  d.parameters.find? (·.name == name)

end Definition

namespace Catalog

private def number (name : String) (default : Float) : Parameter := ⟨name, .number default⟩

private def text (name default : String) : Parameter := ⟨name, .text default⟩

private def choice (name : String) (options : List String) (default : String) : Parameter :=
  ⟨name, .choice options default⟩

/-- The comparisons of numbers that conditions offer. -/
def comparisons : List String :=
  ["less", "less_equal", "greater", "greater_equal", "equals", "not_equals"]

/-- The comparisons that the condition on blackboard variables offers. -/
def blackboardComparisons : List String := ["equals", "not_equals", "greater", "less", "exists"]

/-- How many children decide on the result of a parallel node. -/
def policies : List String := ["one", "all"]

/-- The levels of log messages, least urgent first. -/
def logLevels : List String := ["trace", "debug", "info", "warn", "error"]

private def target : Parameter := text "targetEntity" "Player"

private def ofDistance : List Parameter :=
  [target, number "threshold" 100, choice "comparison" comparisons "less"]

/-- All node types, in the order in which they are listed. -/
def definitions : List Definition := [
  ⟨"sequence", .composite .sequence, []⟩,
  ⟨"selector", .composite .selector, []⟩,
  ⟨"parallel", .composite .parallel,
    [choice "successPolicy" policies "all", choice "failurePolicy" policies "one"]⟩,
  ⟨"random_selector", .composite .randomSelector, []⟩,
  ⟨"random_sequence", .composite .randomSequence, []⟩,
  ⟨"inverter", .decorator .inverter, []⟩,
  ⟨"succeeder", .decorator .succeeder, []⟩,
  ⟨"failer", .decorator .failer, []⟩,
  ⟨"repeater", .decorator .repeater, [number "count" 3]⟩,
  ⟨"repeat_until_fail", .decorator .repeatUntilFail, [number "maxIterations" 100]⟩,
  ⟨"repeat_until_success", .decorator .repeatUntilSuccess, [number "maxIterations" 100]⟩,
  ⟨"cooldown", .decorator .cooldown, [number "duration" 1]⟩,
  ⟨"timeout", .decorator .timeout, [number "timeout" 5]⟩,
  ⟨"move", .action .move,
    [number "targetX" 0, number "targetY" 0, number "speed" 100, number "arrivalThreshold" 5]⟩,
  ⟨"attack", .action .attack,
    [target, number "damage" 10, number "attackRange" 50, number "attackCooldown" 1]⟩,
  ⟨"flee", .action .flee, [target, number "speed" 120, number "safeDistance" 200]⟩,
  ⟨"patrol", .action .patrol,
    [text "waypoints" "0,0;100,0;100,100;0,100", number "speed" 80, number "waitTime" 0.5,
      number "arrivalThreshold" 5]⟩,
  ⟨"idle", .action .idle, [number "duration" 1]⟩,
  ⟨"wait", .action .wait, [number "duration" 1]⟩,
  ⟨"log", .action .log, [text "message" "", choice "level" logLevels "info"]⟩,
  ⟨"set_blackboard", .action .setBlackboard, [text "key" "", text "value" ""]⟩,
  ⟨"always", .condition .always, []⟩,
  ⟨"never", .condition .never, []⟩,
  ⟨"random", .condition .random, [number "threshold" 50]⟩,
  ⟨"distance", .condition .distance, ofDistance⟩,
  ⟨"in_range", .condition .inRange, ofDistance⟩,
  ⟨"health", .condition .health,
    [number "threshold" 50, choice "comparison" comparisons "less"]⟩,
  ⟨"target_health", .condition .targetHealth,
    [target, number "threshold" 50, choice "comparison" comparisons "less"]⟩,
  ⟨"has_target", .condition .hasTarget, [target]⟩,
  ⟨"is_moving", .condition .isMoving, []⟩,
  ⟨"can_see", .condition .canSee, [target]⟩,
  ⟨"check_blackboard", .condition .checkBlackboard,
    [text "key" "", text "expectedValue" "",
      choice "comparison" blackboardComparisons "equals"]⟩]

def lookup (typeName : String) : Option Definition :=
  definitions.find? (·.typeName == typeName)

/-- The node types of a family, in listing order. -/
def ofCategory (c : Category) : List Definition := definitions.filter (·.category = c)

end Catalog

end BehaviorTree
