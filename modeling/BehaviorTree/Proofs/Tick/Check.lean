import BehaviorTree.Tick.Basic
import BehaviorTree.Proofs.Undefined

/-!
# Checked variables

The condition on a blackboard variable asks only how the value of the variable compares with the
expected one, so its comparisons agree with one another: a value is below another one, equal to it or
above it. Only an undefined number is none of these, even to itself.
-/

namespace BehaviorTree

namespace Json

variable {v expected : Json}

/-- How a value compares with another one: as numbers if both are read as such, and else as texts. An
undefined number does not compare. -/
def order? (v expected : Json) : Option Ordering :=
  match v.number?, expected.number? with
  | some x, some y => orderOf? x y
  | _, _ => some (compareOfLessAndEq v.text expected.text)

/-- Whether two values are read as numbers, one of which is undefined. -/
def Clashes (v expected : Json) : Prop :=
  v.Undefined ∧ expected.number?.isSome ∨ v.number?.isSome ∧ expected.Undefined

theorem order?_eq_none_iff : v.order? expected = none ↔ v.Clashes expected := by
  rw [order?, Clashes, ← number?_eq_nan_iff, ← number?_eq_nan_iff]
  cases v.number? with
  | none => simp
  | some x =>
    cases expected.number? with
    | none => simp
    | some y => simp [orderOf?_eq_none_iff]

theorem order?_self (h : ¬ v.Clashes v) : v.order? v = some .eq := by
  rw [Clashes, ← number?_eq_nan_iff] at h
  rw [order?]
  cases hv : v.number? with
  | none => simp [compareOfLessAndEq]
  | some x =>
    refine orderOf?_self fun hx => h (.inl ⟨?_, ?_⟩)
    · rw [hv, hx]
    · rw [hv, Option.isSome_some]

end Json

namespace Comparison

/-- Whether a comparison holds of values that compare in some way. -/
def meets : Comparison → Option Ordering → Bool
  | less, o => o = some .lt
  | lessEqual, o => o.any (·.isLE)
  | greater, o => o = some .gt
  | greaterEqual, o => o.any (·.isGE)
  | equals, o => o = some .eq
  | notEquals, o => o ≠ some .eq
  | present, _ => true

theorem numbers_eq_meets (c : Comparison) (x y : Float) :
    c.numbers x y = c.meets (orderOf? x y) := by
  have hequal : (x == y) = decide (orderOf? x y = some .eq) := by
    rw [Bool.eq_iff_iff, beq_iff_orderOf?, decide_eq_true_iff]
  cases c with
  | less => simp only [numbers, meets, lt_iff_orderOf?]
  | lessEqual => simp [numbers, meets, le_iff_orderOf?]
  | greater => simp only [numbers, meets, gt_iff_orderOf?]
  | greaterEqual => simp [numbers, meets, ge_iff_orderOf?]
  | equals => exact hequal
  | notEquals => simp only [numbers, meets, bne, hequal, decide_not, ne_eq]
  | present => rfl

theorem texts_eq_meets (c : Comparison) (s expected : String) :
    c.texts s expected = c.meets (some (compareOfLessAndEq s expected)) := by
  rw [compareOfLessAndEq]
  by_cases hlt : s < expected
  · have hne : s ≠ expected := by
      rintro rfl
      exact String.lt_irrefl s hlt
    have hgt := String.lt_asymm hlt
    have hle : s ≤ expected := String.not_lt.mp hgt
    cases c <;> simp [texts, meets, hlt, hne, hgt, hle]
  by_cases heq : s = expected
  · subst heq
    cases c <;> simp [texts, meets]
  · have hgt : expected < s := Std.lt_of_le_of_ne hlt (Ne.symm heq)
    have hge : expected ≤ s := String.not_lt.mp hlt
    cases c <;> simp [texts, meets, hlt, heq, hgt, hge]

/-- A comparison asks only for the order of two values. -/
theorem values_eq_meets (c : Comparison) (v expected : Json) :
    c.values v expected = c.meets (v.order? expected) := by
  rw [values, Json.order?]
  cases v.number? with
  | none => exact c.texts_eq_meets _ _
  | some x =>
    cases expected.number? with
    | none => exact c.texts_eq_meets _ _
    | some y => exact c.numbers_eq_meets x y

end Comparison

namespace Settings

variable {n : Node} {d : Definition} {comparison : String}

def comparing (s : Settings) (comparison : String) : Settings :=
  ⟨s.node.set "comparison" (.string comparison), s.definition⟩

theorem value?_comparing (s : Settings) {name : String} (h : name ≠ "comparison") :
    (s.comparing comparison).value? name = s.value? name := by
  rw [value?, comparing, Node.set]
  dsimp only
  rw [Dict.get?_insert_of_ne _ _ h]
  rfl

theorem comparison_comparing (hd : n.definition? = some d)
    (hkind : d.kind = .condition .checkBlackboard)
    (hcomparison : comparison ∈ Catalog.blackboardComparisons) :
    Comparison.ofName? comparison = some ((⟨n, d⟩ : Settings).comparing comparison).comparison := by
  have hall : ∀ d ∈ Catalog.definitions, d.kind = .condition .checkBlackboard →
      d.parameter? "comparison" =
        some ⟨"comparison", .choice Catalog.blackboardComparisons "equals"⟩ := by
    decide +kernel
  have hlookup : Catalog.lookup n.type = some d := hd
  have hoffers := hall d (List.mem_of_find?_eq_some hlookup) hkind
  have htext : ((⟨n, d⟩ : Settings).comparing comparison).text "comparison" = comparison := by
    rw [text, value?, comparing, Node.set]
    dsimp only
    rw [Dict.get?_insert_self]
    rfl
  have hknown : ∀ c ∈ Catalog.blackboardComparisons, (Comparison.ofName? c).isSome := by decide
  obtain ⟨c, hc⟩ := Option.isSome_iff_exists.mp (hknown comparison hcomparison)
  rw [Settings.comparison, htext]
  simp [comparing, hoffers, hcomparison, hc]

end Settings

theorem Status.ofBool_eq_success_iff {b : Bool} : ofBool b = success ↔ b := by
  cases b <;> decide

section Dispatch

variable {n : Node} {d : Definition} {name : String} {c : Comparison} {m : Moment} {k : Nat}
  {children : List (Fin k)} {tick : Ticker k} {f : Frame}

private theorem succeeds_iff_checks (hkind : d.kind = .condition .checkBlackboard)
    (name : String) :
    (dispatch m ((⟨n, d⟩ : Settings).comparing name) children tick f).1 = .success ↔
      Condition.checks ((⟨n, d⟩ : Settings).comparing name) f.blackboard := by
  have hkind' : ((⟨n, d⟩ : Settings).comparing name).definition.kind =
      .condition .checkBlackboard := hkind
  rw [dispatch, hkind']
  exact Status.ofBool_eq_success_iff

private theorem key_comparing (s : Settings) (name : String) :
    (s.comparing name).text "key" = s.text "key" := by
  rw [Settings.text, Settings.value?_comparing s (by decide), Settings.text]

theorem succeeds_of_absent (hd : n.definition? = some d)
    (hkind : d.kind = .condition .checkBlackboard) (hname : name ∈ Catalog.blackboardComparisons)
    (hc : Comparison.ofName? name = some c)
    (hv : f.blackboard.get? ((⟨n, d⟩ : Settings).text "key") = none) :
    (dispatch m ((⟨n, d⟩ : Settings).comparing name) children tick f).1 = .success ↔
      c = .notEquals := by
  have hcomparison := (Settings.comparison_comparing hd hkind hname).symm.trans hc
  rw [succeeds_iff_checks hkind, Condition.checks, key_comparing, hv, Option.some.inj hcomparison]
  exact decide_eq_true_iff

theorem succeeds_of_present (hd : n.definition? = some d)
    (hkind : d.kind = .condition .checkBlackboard) (hname : name ∈ Catalog.blackboardComparisons)
    (hc : Comparison.ofName? name = some c) {v : Json}
    (hv : f.blackboard.get? ((⟨n, d⟩ : Settings).text "key") = some v) :
    (dispatch m ((⟨n, d⟩ : Settings).comparing name) children tick f).1 = .success ↔
      c.meets (v.order? (((⟨n, d⟩ : Settings).value? "expectedValue").getD .null)) := by
  have hcomparison := (Settings.comparison_comparing hd hkind hname).symm.trans hc
  rw [succeeds_iff_checks hkind, Condition.checks, key_comparing, hv, Option.some.inj hcomparison,
    Settings.value?_comparing _ (by decide)]
  dsimp only
  rw [Comparison.values_eq_meets]
  cases c <;> simp [Comparison.meets]

end Dispatch

private theorem existsUnique_of_order {p : String → Prop} {o : Ordering}
    (hless : p "less" ↔ o = .lt) (hequals : p "equals" ↔ o = .eq)
    (hgreater : p "greater" ↔ o = .gt) :
    ∃! name, name ∈ ["less", "equals", "greater"] ∧ p name := by
  cases o with
  | lt => exact ⟨"less", by simp [hless], by simp [hequals, hgreater]⟩
  | eq => exact ⟨"equals", by simp [hequals], by simp [hless, hgreater]⟩
  | gt => exact ⟨"greater", by simp [hgreater], by simp [hless, hequals]⟩

/-- The comparisons of a condition on a blackboard variable agree with one another. A variable that is
there is either below, equal to or above the expected value, where it is equal to itself; only if both
are read as numbers and one of them is undefined, none of the three holds. -/
theorem coherent_of_checkBlackboard {n : Node} {d : Definition} (hd : n.definition? = some d)
    (hkind : d.kind = .condition .checkBlackboard) (m : Moment) {k : Nat} (children : List (Fin k))
    (tick : Ticker k) (f : Frame) :
    let s : Settings := ⟨n, d⟩
    let succeeds (name : String) : Prop :=
      (dispatch m (s.comparing name) children tick f).1 = .success
    let expected := (s.value? "expectedValue").getD .null
    (f.blackboard.get? (s.text "key") = none →
      ∀ name ∈ Catalog.blackboardComparisons, succeeds name ↔ name = "not_equals") ∧
    ∀ v, f.blackboard.get? (s.text "key") = some v →
      succeeds "exists" ∧ (succeeds "not_equals" ↔ ¬ succeeds "equals") ∧
      (¬ v.Clashes expected →
        (∃! name, name ∈ ["less", "equals", "greater"] ∧ succeeds name) ∧
        (v = expected → succeeds "equals")) ∧
      (v.Clashes expected → ∀ name ∈ ["less", "equals", "greater"], ¬ succeeds name) := by
  intro s succeeds expected
  constructor
  · intro habsent name hname
    have hall : ∀ name ∈ Catalog.blackboardComparisons, ∃ c, Comparison.ofName? name = some c ∧
        (c = .notEquals ↔ name = "not_equals") := by
      simp [Catalog.blackboardComparisons, Comparison.ofName?]
    obtain ⟨c, hc, hdifferent⟩ := hall name hname
    exact (succeeds_of_absent hd hkind hname hc habsent).trans hdifferent
  · intro v hv
    have hless : succeeds "less" ↔ Comparison.less.meets (v.order? expected) :=
      succeeds_of_present hd hkind (by decide) rfl hv
    have hequals : succeeds "equals" ↔ Comparison.equals.meets (v.order? expected) :=
      succeeds_of_present hd hkind (by decide) rfl hv
    have hgreater : succeeds "greater" ↔ Comparison.greater.meets (v.order? expected) :=
      succeeds_of_present hd hkind (by decide) rfl hv
    have hother : succeeds "not_equals" ↔ Comparison.notEquals.meets (v.order? expected) :=
      succeeds_of_present hd hkind (by decide) rfl hv
    have hpresent : succeeds "exists" ↔ Comparison.present.meets (v.order? expected) :=
      succeeds_of_present hd hkind (by decide) rfl hv
    refine ⟨hpresent.mpr rfl, ?_, ?_, ?_⟩
    · rw [hother, hequals]
      simp [Comparison.meets]
    · intro hclash
      constructor
      · cases horder : v.order? expected with
        | none => exact absurd (Json.order?_eq_none_iff.mp horder) hclash
        | some o =>
          rw [horder] at hless hequals hgreater
          apply existsUnique_of_order (o := o)
          · rw [hless, Comparison.meets, decide_eq_true_iff, Option.some.injEq]
          · rw [hequals, Comparison.meets, decide_eq_true_iff, Option.some.injEq]
          · rw [hgreater, Comparison.meets, decide_eq_true_iff, Option.some.injEq]
      · intro heq
        rw [hequals, ← heq, Json.order?_self (heq ▸ hclash)]
        rfl
    · intro hclash
      rw [Json.order?_eq_none_iff.mpr hclash] at hless hequals hgreater
      simp [hless, hequals, hgreater, Comparison.meets]

theorem coherent_of_checkBlackboard_numeral :
    let n : Node := ⟨"check", "check_blackboard",
      .ofList [("key", .string "k"), ("expectedValue", .string " 5e0 ")]⟩
    let f : Frame := ⟨∅, .ofList [("k", .integer 7)], ∅, ∅, ⟨0⟩, #[]⟩
    let tick : Ticker 0 := fun p _ => p.elim0
    ∃ d, n.definition? = some d ∧ d.kind = .condition .checkBlackboard ∧
      let succeeds (name : String) : Prop :=
        (dispatch ⟨"actor", 1⟩ ((⟨n, d⟩ : Settings).comparing name) [] tick f).1 = .success
      (∃! name, name ∈ ["less", "equals", "greater"] ∧ succeeds name) ∧ succeeds "greater" := by
  intro n f tick
  let d : Definition := ⟨"check_blackboard", .condition .checkBlackboard,
    [⟨"key", .text ""⟩, ⟨"expectedValue", .text ""⟩,
      ⟨"comparison", .choice Catalog.blackboardComparisons "equals"⟩]⟩
  have hv : f.blackboard.get? ((⟨n, d⟩ : Settings).text "key") = some (.integer 7) := by decide
  have hclash : ¬ (Json.integer 7).Clashes
      (((⟨n, d⟩ : Settings).value? "expectedValue").getD .null) := by
    rw [Json.Clashes, ← Json.number?_eq_nan_iff, ← Json.number?_eq_nan_iff]
    decide +kernel
  have hall := (coherent_of_checkBlackboard (n := n) (d := d) rfl rfl ⟨"actor", 1⟩ [] tick f).2
  exact ⟨d, rfl, rfl, ((hall _ hv).2.2.1 hclash).1, by decide +kernel⟩

/-- A text that spells the undefined number is neither below, equal to nor above itself. -/
theorem checkBlackboard_undefined :
    let n : Node := ⟨"check", "check_blackboard",
      .ofList [("key", .string "k"), ("expectedValue", .string "nan")]⟩
    let f : Frame := ⟨∅, .ofList [("k", .string "nan")], ∅, ∅, ⟨0⟩, #[]⟩
    let tick : Ticker 0 := fun p _ => p.elim0
    ∃ d, n.definition? = some d ∧ d.kind = .condition .checkBlackboard ∧
      f.blackboard.get? ((⟨n, d⟩ : Settings).text "key") =
        (⟨n, d⟩ : Settings).value? "expectedValue" ∧
      ∀ name ∈ ["less", "equals", "greater"],
        (dispatch ⟨"actor", 1⟩ ((⟨n, d⟩ : Settings).comparing name) [] tick f).1 = .failure := by
  intro n f tick
  let d : Definition := ⟨"check_blackboard", .condition .checkBlackboard,
    [⟨"key", .text ""⟩, ⟨"expectedValue", .text ""⟩,
      ⟨"comparison", .choice Catalog.blackboardComparisons "equals"⟩]⟩
  exact ⟨d, rfl, rfl, by decide, by decide +kernel⟩

end BehaviorTree
