import BehaviorTree.Json.Printer
import BehaviorTree.Proofs.Decimal.Whole

/-!
# Undefined numbers

Numbers of double precision are ordered, apart from the undefined one, which compares with none. No
whole number and no decimal is undefined: of the values that are read as numbers, only the strings that
spell the undefined number are.
-/

namespace BehaviorTree

open Float.Model Float.Model.UnpackedFloat

section Order

theorem compare_swap (a b : UnpackedFloat) :
    (a.compare b).map Ordering.swap = b.compare a := by
  cases a with
  | notANumber => cases b <;> rfl
  | infinity s =>
    cases b with
    | infinity s' => cases s <;> cases s' <;> rfl
    | notANumber | zero | finite => cases s <;> rfl
  | zero s =>
    cases b with
    | infinity s' | finite s' => cases s' <;> rfl
    | notANumber | zero => rfl
  | finite s m e hm =>
    cases b with
    | infinity s' => cases s' <;> rfl
    | notANumber | zero => cases s <;> rfl
    | finite s' m' e' hm' =>
      have hswap : ((compare e e').then (compare m m')).swap =
          (compare e' e).then (compare m' m) := by
        rw [Ordering.swap_then, ← Std.OrientedCmp.eq_swap, ← Std.OrientedCmp.eq_swap]
      cases s <;> cases s' <;> simp [UnpackedFloat.compare, hswap]

theorem compare_eq_none_iff {a b : UnpackedFloat} :
    a.compare b = none ↔ a.isNaN ∨ b.isNaN := by
  rw [UnpackedFloat.compare.eq_def]
  split <;> simp [UnpackedFloat.isNaN]

/-- How a number compares with another one; an undefined number does not. -/
def orderOf? (x y : Float) : Option Ordering := x.toModel.unpack.compare y.toModel.unpack

variable {x y : Float}

theorem lt_iff_orderOf? : x < y ↔ orderOf? x y = some .lt :=
  decide_eq_true_iff.trans beq_iff_eq

theorem beq_iff_orderOf? : x == y ↔ orderOf? x y = some .eq :=
  beq_iff_eq (a := orderOf? x y)

theorem le_iff_orderOf? : x ≤ y ↔ (orderOf? x y).any (·.isLE) :=
  decide_eq_true_iff

theorem map_swap_orderOf? (x y : Float) : (orderOf? x y).map Ordering.swap = orderOf? y x :=
  compare_swap _ _

theorem gt_iff_orderOf? : y < x ↔ orderOf? x y = some .gt := by
  rw [lt_iff_orderOf?, ← map_swap_orderOf? x y]
  cases orderOf? x y with
  | none => simp
  | some o => cases o <;> simp

theorem ge_iff_orderOf? : y ≤ x ↔ (orderOf? x y).any (·.isGE) := by
  rw [le_iff_orderOf?, ← map_swap_orderOf? x y]
  cases orderOf? x y with
  | none => simp
  | some o => cases o <;> simp

theorem orderOf?_eq_none_iff : orderOf? x y = none ↔ x = .nan ∨ y = .nan := by
  have hnan : ∀ z : Float, z.toModel.unpack.isNaN ↔ z = .nan := by
    intro z
    show z.isNaN ↔ _
    simp
  rw [orderOf?, compare_eq_none_iff, hnan, hnan]

theorem orderOf?_self (h : x ≠ .nan) : orderOf? x x = some .eq :=
  beq_iff_orderOf?.mp (Float.beq_self_iff.mpr h)

end Order

section Undefined

theorem unpack_pack_ne {x : UnpackedFloat} (h : x ≠ .notANumber) :
    UnpackedFloat.unpack .binary64 (UnpackedFloat.pack .binary64 x) ≠ .notANumber := by
  have hparts : ∀ sign exponent mantissa, exponent ≠ -1#11 ∨ mantissa = 0#52 →
      UnpackedFloat.unpack .binary64 (packComponents .binary64 sign exponent mantissa) ≠
        .notANumber := by
    intro sign exponent mantissa hexponent
    simp only [UnpackedFloat.unpack, unpackExponent_packComponents, unpackMantissa_packComponents]
    split
    · rename_i hlast
      rw [if_pos (hexponent.resolve_left (not_not_intro hlast))]
      simp
    split
    · split <;> simp
    · simp
  cases x with
  | notANumber => exact absurd rfl h
  | infinity sign => exact hparts sign _ _ (.inr rfl)
  | zero sign => exact hparts sign _ _ (.inl (by decide))
  | finite sign m e hm =>
    rw [UnpackedFloat.pack]
    dsimp only
    split
    · exact hparts sign _ _ (.inr rfl)
    rename_i hlow
    split
    · refine hparts sign _ _ (.inl fun hlast => hlow ?_)
      have hexponent := congrArg BitVec.toNat hlast
      rw [BitVec.toNat_ofNat] at hexponent
      have hmod := Nat.mod_le (e + Format.binary64.exponentBias +
        Format.binary64.mantissaBitsWithoutImplicit).toNat (2 ^ Format.binary64.exponentBits)
      rw [hexponent] at hmod
      exact Nat.succ_le_succ hmod
    · exact hparts sign _ _ (.inl (by decide))

theorem pack_ne_nan {x : UnpackedFloat} (h : x ≠ .notANumber) :
    Float.ofModel (.pack x) ≠ .nan := by
  intro hnan
  apply unpack_pack_ne h
  rw [← isNaN_iff]
  show (Float.ofModel (.pack x)).isNaN = true
  rw [hnan]
  simp

theorem unpack_ne {x : Float} (h : x ≠ .nan) : x.toModel.unpack ≠ .notANumber := by
  intro hnan
  have hx : x.isNaN := isNaN_iff.mpr hnan
  exact h (by simpa using hx)

theorem neg_ne_nan {x : Float} (h : x ≠ .nan) : -x ≠ .nan := by
  refine pack_ne_nan (x := x.toModel.unpack.neg) ?_
  have hx := unpack_ne h
  cases hunpack : x.toModel.unpack with
  | notANumber => exact absurd hunpack hx
  | infinity | zero | finite => simp [UnpackedFloat.neg]

theorem nearestDouble_ne_nan (digits : Nat) (exponent : Int) :
    Decimal.nearestDouble digits exponent ≠ .nan := by
  rw [nearestDouble_eq]
  apply pack_ne_nan
  rw [nearestTo, ofSignificand]
  split <;> simp

theorem ofNat_ne_nan (n : Nat) : Float.ofNat n ≠ .nan := by
  rw [ofNat_eq_nearestDouble]
  exact nearestDouble_ne_nan n 0

theorem ofInt_ne_nan (n : Int) : Float.ofInt n ≠ .nan := by
  cases n with
  | ofNat n => exact ofNat_ne_nan n
  | negSucc n => exact neg_ne_nan (ofNat_ne_nan (n + 1))

theorem Decimal.toDouble_ne_nan (d : Decimal) : d.toDouble ≠ .nan := by
  rw [toDouble]
  split
  · exact neg_ne_nan (nearestDouble_ne_nan _ _)
  · exact nearestDouble_ne_nan _ _

namespace Numeral

theorem toDouble_eq_nan_iff {n : Numeral} : n.toDouble = .nan ↔ n = .undefined := by
  cases n with
  | decimal d => exact iff_of_false d.toDouble_ne_nan (by simp)
  | infinite negative => cases negative <;> decide
  | undefined => decide

theorem ofText?_eq_undefined_iff {text : List Char} :
    ofText? text = some .undefined ↔ (sign text).2.map Char.toLower = "nan".toList := by
  rw [ofText?]
  dsimp only
  split
  · rename_i hinfinite
    refine iff_of_false (by simp) fun hnan => ?_
    rw [hnan] at hinfinite
    exact absurd hinfinite (by decide)
  split
  · rename_i hnan
    exact iff_of_true rfl hnan
  · rename_i hnan
    refine iff_of_false ?_ hnan
    simp

end Numeral

/-- Whether a value is a string that spells the undefined number, with any sign and in any letter
case. -/
def Json.Undefined (v : Json) : Prop :=
  ∃ s, v = .string s ∧ (Numeral.sign (Text.trim s.toList)).2.map Char.toLower = "nan".toList

/-- Only a string that spells the undefined number is read as that. -/
theorem Json.number?_eq_nan_iff {v : Json} : v.number? = some .nan ↔ v.Undefined := by
  obtain ⟨document, hcanonical⟩ := v
  have hno : (∀ s, document ≠ .string s) → ¬ Json.Undefined ⟨document, hcanonical⟩ := by
    rintro h ⟨s, hs, -⟩
    exact h s (congrArg Json.document hs)
  cases document with
  | null | array | object | unreadable =>
    exact iff_of_false (by simp [number?]) (hno (by simp))
  | bool b =>
    refine iff_of_false (fun h => ?_) (hno (by simp))
    cases b with
    | true => exact ofNat_ne_nan 1 (Option.some.inj h)
    | false => exact ofNat_ne_nan 0 (Option.some.inj h)
  | number n =>
    refine iff_of_false (fun h => ?_) (hno (by simp))
    cases n with
    | integer n => exact ofInt_ne_nan n (Option.some.inj h)
    | single x => cases hcanonical
    | double x =>
      have hfinite : x.isFinite := hcanonical
      rw [Option.some.inj h] at hfinite
      exact absurd hfinite (by decide)
  | string s =>
    show (Numeral.ofText? (Text.trim s.toList)).map (·.toDouble) = some .nan ↔ _
    rw [Option.map_eq_some_iff]
    constructor
    · rintro ⟨n, hn, hnan⟩
      rw [Numeral.toDouble_eq_nan_iff.mp hnan] at hn
      exact ⟨s, rfl, Numeral.ofText?_eq_undefined_iff.mp hn⟩
    · rintro ⟨s', hs, hnan⟩
      cases hs
      exact ⟨.undefined, Numeral.ofText?_eq_undefined_iff.mpr hnan,
        Numeral.toDouble_eq_nan_iff.mpr rfl⟩

end Undefined

end BehaviorTree
