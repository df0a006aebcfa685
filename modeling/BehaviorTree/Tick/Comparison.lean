import BehaviorTree.Tree.Settings

/-!
# Comparisons

The ways in which conditions compare a number or a text with an expected one.
-/

namespace BehaviorTree

/-- A way to compare. -/
inductive Comparison where
  | less | lessEqual | greater | greaterEqual | equals | notEquals
  /-- Holds of everything that is there. -/
  | present
deriving DecidableEq

namespace Comparison

def ofName? : String → Option Comparison
  | "less" => some less
  | "less_equal" => some lessEqual
  | "greater" => some greater
  | "greater_equal" => some greaterEqual
  | "equals" => some equals
  | "not_equals" => some notEquals
  | "exists" => some present
  | _ => none

def numbers (c : Comparison) (value threshold : Float) : Bool :=
  match c with
  | less => value < threshold
  | lessEqual => value ≤ threshold
  | greater => threshold < value
  | greaterEqual => threshold ≤ value
  | equals => value == threshold
  | notEquals => value != threshold
  | present => true

/-- Compares texts by code points. -/
def texts (c : Comparison) (value expected : String) : Bool :=
  match c with
  | less => value < expected
  | lessEqual => value ≤ expected
  | greater => expected < value
  | greaterEqual => expected ≤ value
  | equals => value = expected
  | notEquals => value ≠ expected
  | present => true

/-- Compares values: as numbers if both are numbers, and else as texts. -/
def values (c : Comparison) (value expected : Json) : Bool :=
  match value.number?, expected.number? with
  | some a, some b => c.numbers a b
  | _, _ => c.texts value.text expected.text

end Comparison

/-- The comparison that a node sets, if its type offers it, and else the default. -/
def Settings.comparison (s : Settings) : Comparison :=
  let configured := s.text "comparison"
  let offered := match (s.definition.parameter? "comparison").map (·.type) with
    | some (.choice options _) => options.contains configured
    | _ => false
  let chosen := if offered then Comparison.ofName? configured else none
  (chosen <|> (s.default? "comparison").bind fun v => Comparison.ofName? v.text).getD .less

end BehaviorTree
