import BehaviorTree.Decimal.Basic
import BehaviorTree.Proofs.Precision

/-!
# Rounding rational numbers

Multiplication and division of floating-point numbers round what is known of a rational number: its
whole part at some exponent, whether the rest is at least one half, and whether there is more to it.
Both take the number of the format that is nearest to the exact result. So the number that is read
from digits and a power of ten depends on nothing but the rational number that they stand for.
-/

namespace BehaviorTree

open Float.Model Float.Model.UnpackedFloat

/-- A rational number cut off to a whole one, with what is to know of the rest to round it. -/
def truncated (x : ℚ) : ExtendedMantissa where
  mantissa := ⌊x⌋₊
  roundBit := 1 / 2 ≤ Int.fract x
  stickyBit := Int.fract x ≠ 0 ∧ Int.fract x ≠ 1 / 2

theorem truncated_add (n : ℕ) {f : ℚ} (hf : 0 ≤ f) (hf' : f < 1) :
    truncated (n + f) = ⟨n, 1 / 2 ≤ f, f ≠ 0 ∧ f ≠ 1 / 2⟩ := by
  have hfloor : ⌊(n : ℚ) + f⌋₊ = n := by
    rw [add_comm, Nat.floor_add_natCast hf, Nat.floor_eq_zero.mpr hf', Nat.zero_add]
  have hfract : Int.fract ((n : ℚ) + f) = f := by
    rw [Int.fract_natCast_add, Int.fract_eq_self.mpr ⟨hf, hf'⟩]
  rw [truncated, hfloor, hfract]

theorem exists_add (x : ℚ) (hx : 0 ≤ x) : ∃ (n : ℕ) (f : ℚ), 0 ≤ f ∧ f < 1 ∧ x = n + f := by
  refine ⟨⌊x⌋₊, Int.fract x, Int.fract_nonneg x, Int.fract_lt_one x, ?_⟩
  rw [natCast_floor_eq_intCast_floor hx, Int.floor_add_fract]

theorem shiftRightOne_truncated {x : ℚ} (hx : 0 ≤ x) :
    (truncated x).shiftRightOne = truncated (x / 2) := by
  obtain ⟨n, f, hf, hf', rfl⟩ := exists_add x hx
  have hhalf : ((n : ℚ) + f) / 2 = (n / 2 : ℕ) + ((n % 2 : ℕ) + f) / 2 := by
    have hn : (n : ℚ) = 2 * (n / 2 : ℕ) + (n % 2 : ℕ) := by
      exact_mod_cast (Nat.div_add_mod n 2).symm
    linarith
  have hdigit : n % 2 = 0 ∧ ((n % 2 : ℕ) : ℚ) = 0 ∨ n % 2 = 1 ∧ ((n % 2 : ℕ) : ℚ) = 1 := by
    rcases Nat.mod_two_eq_zero_or_one n with h | h <;> simp [h]
  generalize ((n % 2 : ℕ) : ℚ) = digit at hhalf hdigit
  have hrest : 0 ≤ (digit + f) / 2 ∧ (digit + f) / 2 < 1 := by grind
  have hround : n % 2 ≠ 0 ↔ 1 / 2 ≤ (digit + f) / 2 := by grind
  have hsticky : 1 / 2 ≤ f ∨ f ≠ 0 ∧ f ≠ 1 / 2 ↔
      (digit + f) / 2 ≠ 0 ∧ (digit + f) / 2 ≠ 1 / 2 := by grind
  rw [hhalf, truncated_add n hf hf', truncated_add _ hrest.1 hrest.2]
  simp only [ExtendedMantissa.shiftRightOne, ← hround, ← hsticky, Bool.decide_or, ne_eq, decide_not]
  rfl

theorem shiftRight_truncated {x : ℚ} (hx : 0 ≤ x) (k : ℕ) :
    truncated x >>> k = truncated (x / 2 ^ k) := by
  change Nat.repeat ExtendedMantissa.shiftRightOne k _ = _
  induction k with
  | zero => simp [Nat.repeat]
  | succ k ih =>
    rw [Nat.repeat, ih, shiftRightOne_truncated (by positivity), div_div, pow_succ]

@[simp] theorem truncated_natCast (n : ℕ) : truncated n = ⟨n, false, false⟩ := by
  have h := truncated_add n (le_refl (0 : ℚ)) one_pos
  norm_num at h
  exact h

/-- A quotient with the accuracy of its remainder. -/
theorem ofMantissaAndAccuracy_div (a : ℕ) {b : ℕ} (hb : 0 < b) :
    ExtendedMantissa.ofMantissaAndAccuracy (a / b) (accuracyOfFraction (a % b) b) =
      truncated (a / b : ℚ) := by
  have hpos : (0 : ℚ) < b := by exact_mod_cast hb
  have hquotient : (a / b : ℚ) = (a / b : ℕ) + ((a % b : ℕ) : ℚ) / b := by
    have ha : (a : ℚ) = b * (a / b : ℕ) + (a % b : ℕ) := by
      exact_mod_cast (Nat.div_add_mod a b).symm
    nth_rewrite 1 [ha]
    field_simp
  have hlt : ((a % b : ℕ) : ℚ) < b := by exact_mod_cast Nat.mod_lt a hb
  rw [hquotient, truncated_add _ (by positivity) ((div_lt_one hpos).mpr hlt)]
  generalize a % b = rest at hlt
  have hround : 1 / 2 ≤ (rest : ℚ) / b ↔ b ≤ 2 * rest := by
    rw [le_div_iff₀ hpos, ← Nat.cast_le (α := ℚ)]
    push_cast
    constructor <;> intro h <;> linarith
  have hexact : (rest : ℚ) / b = 1 / 2 ↔ b = 2 * rest := by
    rw [div_eq_iff hpos.ne', ← Nat.cast_inj (R := ℚ)]
    push_cast
    constructor <;> intro h <;> linarith
  have hzero : (rest : ℚ) / b = 0 ↔ rest = 0 := by
    rw [div_eq_zero_iff, Nat.cast_eq_zero]
    simp [hpos.ne']
  simp only [hround, hexact, hzero, ne_eq, accuracyOfFraction]
  by_cases hrest : rest = 0
  · rw [if_pos hrest]
    simp [hrest, ExtendedMantissa.ofMantissaAndAccuracy, Nat.not_le.mpr hb]
  · rw [if_neg hrest]
    rcases Nat.lt_trichotomy (2 * rest) b with h | h | h
    · rw [Nat.compare_eq_lt.mpr h]
      simp [ExtendedMantissa.ofMantissaAndAccuracy, hrest, Nat.not_le.mpr h, h.ne']
    · rw [Nat.compare_eq_eq.mpr h]
      simp [ExtendedMantissa.ofMantissaAndAccuracy, hrest, h]
    · rw [Nat.compare_eq_gt.mpr h]
      simp [ExtendedMantissa.ofMantissaAndAccuracy, hrest, h.le, h.ne]

section

variable {format : Format} {sign : Sign} {m : Nat} {e : Int} {v : ℚ}

/-- The exponent of the numbers of a format around a positive one. -/
def exponentAt (format : Format) (v : ℚ) : Int := format.targetExponent (Int.log 2 v + 1)

/-- A significand with an exponent of a format, which has at most one digit too many. -/
def ofSignificand (format : Format) (sign : Sign) (m : Nat) (e : Int) : UnpackedFloat :=
  let shifted := shiftToTargetExponent format m e .exact
  if h : shifted.1.mantissa = 0 then .zero sign
  else .finite sign shifted.1.mantissa shifted.2 (Nat.pos_of_ne_zero h)

/-- The number of a format that is nearest to a positive one. -/
def nearestTo (format : Format) (sign : Sign) (v : ℚ) : UnpackedFloat :=
  ofSignificand format sign (truncated (v / 2 ^ exponentAt format v)).roundedMantissa
    (exponentAt format v)

theorem log_mul_zpow (hv : 0 < v) (e : Int) : Int.log 2 (v * 2 ^ e) = Int.log 2 v + e := by
  apply eq_of_forall_le_iff
  intro k
  have hpos : 0 < v * 2 ^ e := by positivity
  have hv' := Int.zpow_le_iff_le_log (b := 2) one_lt_two (x := k - e) hv
  have hpos' := Int.zpow_le_iff_le_log (b := 2) one_lt_two (x := k) hpos
  push_cast at hv' hpos'
  rw [← hpos', ← sub_le_iff_le_add, ← hv', zpow_sub₀ two_ne_zero, div_le_iff₀ (by positivity)]

theorem log_of_floor_ne_zero (hv : 0 < v) (h : ⌊v / 2 ^ e⌋₊ ≠ 0) :
    Int.log 2 v = (⌊v / 2 ^ e⌋₊.log2 : Int) + e := by
  have hone : 1 ≤ v / 2 ^ e := Nat.floor_pos.mp (Nat.pos_of_ne_zero h)
  have hlog := log_mul_zpow (v := v / 2 ^ e) (by positivity) e
  rw [div_mul_cancel₀ _ (by positivity)] at hlog
  rw [hlog, Int.log_of_one_le_right 2 hone, Nat.log2_eq_log_two]

theorem log_of_floor_eq_zero (hv : 0 < v) (h : ⌊v / 2 ^ e⌋₊ = 0) : Int.log 2 v < e := by
  have hlt : v / 2 ^ e < 1 := Nat.floor_eq_zero.mp h
  rw [div_lt_one (by positivity)] at hlt
  have hlog := Int.lt_zpow_iff_log_lt (b := 2) one_lt_two (x := e) hv
  push_cast at hlog
  exact hlog.mp hlt

theorem targetExponent_floor (hv : 0 < v) (hlow : ⌊v / 2 ^ e⌋₊ = 0 → e ≤ format.minExponent) :
    format.targetExponent (totalExponent ⌊v / 2 ^ e⌋₊ e) = exponentAt format v := by
  rw [exponentAt, Format.targetExponent, Format.targetExponent, totalExponent, Format.mantissaBits]
  by_cases h : ⌊v / 2 ^ e⌋₊ = 0
  · have hlog := log_of_floor_eq_zero hv h
    have hmin := hlow h
    have hzero : Nat.log2 0 = 0 := rfl
    rw [h, hzero]
    omega
  · rw [log_of_floor_ne_zero hv h]
    omega

/-- Rounding what is known of a number takes the nearest one. -/
theorem roundWithAccuracy_eq_nearestTo {accuracy : Accuracy} (hv : 0 < v)
    (hm : ExtendedMantissa.ofMantissaAndAccuracy m accuracy = truncated (v / 2 ^ e))
    (hlow : m = 0 → e ≤ format.minExponent) (he : e ≤ exponentAt format v) :
    roundWithAccuracy format sign m e accuracy = nearestTo format sign v := by
  have hfloor : m = ⌊v / 2 ^ e⌋₊ := by
    have hmantissa := congrArg ExtendedMantissa.mantissa hm
    rw [ExtendedMantissa.ofMantissaAndAccuracy.eq_def] at hmantissa
    split at hmantissa <;> exact hmantissa
  have hshift : shiftToTargetExponent format m e accuracy =
      (truncated (v / 2 ^ exponentAt format v), exponentAt format v) := by
    have hamount : e + ((exponentAt format v - e).toNat : Int) = exponentAt format v := by omega
    have hscaled : v / 2 ^ e / 2 ^ (exponentAt format v - e).toNat =
        v / 2 ^ exponentAt format v := by
      rw [div_div, ← zpow_natCast, ← zpow_add₀ two_ne_zero, hamount]
    have htarget : format.targetExponent (totalExponent m e) = exponentAt format v := by
      rw [hfloor]
      exact targetExponent_floor hv (hfloor ▸ hlow)
    rw [shiftToTargetExponent, shiftToExponent, htarget, hm, shiftRight_truncated (by positivity),
      hscaled, hamount]
  rw [roundWithAccuracy, hshift]
  rfl

theorem exponentAt_mul_zpow (hm : 0 < m) (e : Int) :
    exponentAt format (m * 2 ^ e) = format.targetExponent (totalExponent m e) := by
  have hv : (m * 2 ^ e : ℚ) / 2 ^ e = m := mul_div_cancel_right₀ _ (by positivity)
  have htarget := @targetExponent_floor format e (m * 2 ^ e) (by positivity)
  rw [hv, Nat.floor_natCast] at htarget
  exact (htarget fun h => absurd h (Nat.ne_of_gt hm)).symm

theorem roundWithAccuracy_exact (hm : 0 < m) (he : e ≤ exponentAt format (m * 2 ^ e)) :
    roundWithAccuracy format sign m e .exact = nearestTo format sign (m * 2 ^ e) := by
  have hknown : ExtendedMantissa.ofMantissaAndAccuracy m .exact =
      truncated ((m * 2 ^ e : ℚ) / 2 ^ e) := by
    rw [mul_div_cancel_right₀ _ (by positivity), truncated_natCast]
    rfl
  exact roundWithAccuracy_eq_nearestTo (by positivity) hknown
    (fun h => absurd h (Nat.ne_of_gt hm)) he

theorem round_eq_nearestTo (hm : 0 < m) (sign : Sign) (e : Int) :
    UnpackedFloat.round format sign m e = nearestTo format sign (m * 2 ^ e) := by
  let k := (e - format.targetExponent (totalExponent m e)).toNat
  have hk : k = (e - format.targetExponent (totalExponent m e)).toNat := rfl
  have hvalue : ((m * 2 ^ k : ℕ) : ℚ) * 2 ^ (e - k) = m * 2 ^ e := by
    rw [Nat.cast_mul, Nat.cast_pow, mul_assoc, ← zpow_natCast, Nat.cast_ofNat,
      ← zpow_add₀ two_ne_zero, add_sub_cancel]
  rw [UnpackedFloat.round, decreaseExponent, Nat.shiftLeft_eq, ← hvalue]
  apply roundWithAccuracy_exact (Nat.mul_pos hm (Nat.two_pow_pos k))
  rw [hvalue, exponentAt_mul_zpow hm]
  omega

theorem minExponent_le_exponentAt (format : Format) (v : ℚ) :
    format.minExponent ≤ exponentAt format v := le_max_right _ _

theorem ofSignificand_zero (format : Format) (sign : Sign) (e : Int) :
    ofSignificand format sign 0 e = .zero sign := by
  have hshift : ∀ k : Nat, (truncated (0 : ℕ) >>> k).mantissa = 0 := by
    intro k
    rw [shiftRight_truncated (by simp), Nat.cast_zero, zero_div]
    exact Nat.floor_zero
  rw [truncated_natCast] at hshift
  exact dif_pos (hshift _)

theorem exists_ofSignificand (hm : m ≠ 0) (he : format.minExponent ≤ e) (sign : Sign) :
    ∃ m' e' hm', ofSignificand format sign m e = .finite sign m' e' hm' ∧ e ≤ e' := by
  have hshift : ∀ k : Nat,
      (ExtendedMantissa.ofMantissaAndAccuracy m .exact >>> k).mantissa = m / 2 ^ k := by
    intro k
    change ((⟨m, false, false⟩ : ExtendedMantissa) >>> k).mantissa = _
    rw [← truncated_natCast, shiftRight_truncated (by positivity)]
    change ⌊(m : ℚ) / 2 ^ k⌋₊ = _
    exact_mod_cast Nat.floor_div_natCast (m : ℚ) (2 ^ k)
  have hne : (shiftToTargetExponent format m e .exact).1.mantissa ≠ 0 := by
    rw [shiftToTargetExponent, shiftToExponent]
    dsimp only
    rw [hshift]
    apply Nat.ne_of_gt
    apply Nat.div_pos _ (Nat.two_pow_pos _)
    apply (Nat.le_log2 hm).mp
    rw [Format.targetExponent, totalExponent, Format.mantissaBits]
    omega
  refine ⟨_, _, Nat.pos_of_ne_zero hne, dif_neg hne, ?_⟩
  rw [shiftToTargetExponent, shiftToExponent]
  omega

end

section Decimals

variable {m : Nat} {e : Int}

theorem mul_eq_nearestTo (format : Format) (hm : 0 < m) (he : 0 ≤ e) (h h') :
    UnpackedFloat.mul format (.finite .positive (m <<< format.mantissaBits) (-format.mantissaBits) h)
      (.finite .positive (10 ^ e.toNat) 0 h') =
      nearestTo format .positive (m * 10 ^ e) := by
  have hpower : (10 : ℚ) ^ e = (10 ^ e.toNat : ℕ) := by
    rw [Nat.cast_pow, ← zpow_natCast, Int.toNat_of_nonneg he]
    rfl
  have hv : (1 : ℚ) ≤ m * 10 ^ e := by
    rw [hpower]
    exact_mod_cast Nat.mul_pos hm (Nat.pow_pos (by decide))
  have hscaled : ((m <<< format.mantissaBits * 10 ^ e.toNat : ℕ) : ℚ) *
      2 ^ (-(format.mantissaBits : Int) + 0) = m * 10 ^ e := by
    rw [hpower, add_zero, zpow_neg, zpow_natCast, Nat.shiftLeft_eq]
    push_cast
    field_simp
  rw [← hscaled]
  apply roundWithAccuracy_exact (Nat.mul_pos h h')
  rw [hscaled, exponentAt, Format.targetExponent]
  have hlog := (Int.zpow_le_iff_le_log (b := 2) one_lt_two (x := 0)
    (lt_of_lt_of_le one_pos hv)).mp (by simpa using hv)
  omega

theorem le_log_div {d : Nat} (hm : 0 < m) (hd : 0 < d) :
    (m.log2 : Int) - d.log2 - 1 ≤ Int.log 2 (m / d : ℚ) := by
  have hpos : (0 : ℚ) < m / d := by positivity
  have hle := Int.zpow_le_iff_le_log (b := 2) one_lt_two (x := (m.log2 : Int) - d.log2 - 1) hpos
  apply hle.mp
  have hnum : ((2 : ℕ) ^ m.log2 : ℚ) ≤ m := by
    exact_mod_cast (Nat.le_log2 (Nat.ne_of_gt hm)).mp (le_refl m.log2)
  have hden : (d : ℚ) ≤ (2 : ℕ) ^ (d.log2 + 1) := by
    exact_mod_cast ((Nat.log2_lt (Nat.ne_of_gt hd)).mp (Nat.lt_succ_self d.log2)).le
  have hsplit : ((2 : ℕ) : ℚ) ^ ((m.log2 : Int) - d.log2 - 1) =
      (2 : ℕ) ^ m.log2 / (2 : ℕ) ^ (d.log2 + 1) := by
    rw [sub_sub, zpow_sub₀ (by norm_num), ← Nat.cast_add_one, zpow_natCast, zpow_natCast]
  rw [hsplit]
  exact div_le_div₀ (by positivity) hnum (by positivity) hden

theorem div_eq_nearestTo (format : Format) {d : Nat} (hm : 0 < m) (hd : 0 < d) :
    UnpackedFloat.div format (.finite .positive m 0 hm) (.finite .positive d 0 hd) =
      nearestTo format .positive (m / d) := by
  have hlog := le_log_div hm hd
  have hdiv : ∀ target : Int, target ≤ 0 →
      (m / d : ℚ) / 2 ^ target = ((m <<< (0 - target).toNat : ℕ) : ℚ) / d := by
    intro target htarget
    have hshift : target = -((0 - target).toNat : Int) := by omega
    nth_rewrite 1 [hshift]
    rw [zpow_neg, zpow_natCast, div_inv_eq_mul, Nat.shiftLeft_eq]
    push_cast
    ring
  have hbits : 1 ≤ format.mantissaBits := Nat.le_add_right 1 _
  rw [UnpackedFloat.div, divCore]
  dsimp only
  rw [sub_zero]
  generalize htarget : min 0 (format.targetExponent (totalExponent m 0 - totalExponent d 0)) = target
  have htarget' := htarget
  rw [Format.targetExponent, totalExponent, totalExponent] at htarget'
  apply roundWithAccuracy_eq_nearestTo (by positivity)
  · rw [ofMantissaAndAccuracy_div _ hd, hdiv target (by omega)]
  · intro hzero
    have hfloor : ⌊(m / d : ℚ) / 2 ^ target⌋₊ = 0 := by
      rw [hdiv target (by omega), Nat.floor_div_natCast, Nat.floor_natCast, hzero]
    have hlow := log_of_floor_eq_zero (by positivity) hfloor
    omega
  · rw [exponentAt, Format.targetExponent]
    omega

theorem mantissa_le_roundedMantissa (em : ExtendedMantissa) : em.mantissa ≤ em.roundedMantissa := by
  rw [ExtendedMantissa.roundedMantissa, Accuracy.roundToNearestEven.eq_def]
  split <;> omega

theorem roundedMantissa_of_lt_half {x : ℚ} (hx : 0 ≤ x) (h : x < 1 / 2) :
    (truncated x).roundedMantissa = 0 := by
  have hlt : x < 1 := by linarith
  have htruncated := truncated_add 0 hx hlt
  rw [Nat.cast_zero, zero_add] at htruncated
  rw [htruncated, ExtendedMantissa.roundedMantissa, ExtendedMantissa.accuracy.eq_def]
  simp only [not_le.mpr h, decide_false]
  cases decide (x ≠ 0 ∧ x ≠ 1 / 2) <;> rfl

theorem pack_nearestTo_of_large {v : ℚ} (hv : 0 < v) (h : 1024 ≤ Int.log 2 v) (sign : Sign) :
    UnpackedFloat.pack .binary64 (nearestTo .binary64 sign v) = packedInfinity .binary64 sign := by
  have hmin : Format.binary64.minExponent = -1074 := by rfl
  have hexponent : exponentAt .binary64 v = Int.log 2 v - 52 := by
    simp only [exponentAt, Format.targetExponent, hmin, Format.mantissaBits]
    omega
  have hone : 1 ≤ v / 2 ^ exponentAt .binary64 v := by
    have hle := Int.zpow_le_iff_le_log (b := 2) one_lt_two (x := exponentAt .binary64 v) hv
    rw [one_le_div (by positivity)]
    exact_mod_cast hle.mpr (by omega)
  have hfloor : 1 ≤ (truncated (v / 2 ^ exponentAt .binary64 v)).mantissa := Nat.floor_pos.mpr hone
  have hle := mantissa_le_roundedMantissa (truncated (v / 2 ^ exponentAt .binary64 v))
  obtain ⟨m, e, hm, hfinite, he⟩ := exists_ofSignificand
    (Nat.ne_of_gt (Nat.lt_of_lt_of_le hfloor hle)) (minExponent_le_exponentAt .binary64 v) sign
  have hbias : Format.binary64.exponentBias = 1023 := by rfl
  rw [nearestTo, hfinite, UnpackedFloat.pack]
  dsimp only
  rw [hbias, if_pos]
  omega

theorem nearestTo_of_small {v : ℚ} (hv : 0 < v) (h : Int.log 2 v < -1075) (sign : Sign) :
    nearestTo .binary64 sign v = .zero sign := by
  have hmin : Format.binary64.minExponent = -1074 := by rfl
  have hexponent : exponentAt .binary64 v = -1074 := by
    simp only [exponentAt, Format.targetExponent, hmin, Format.mantissaBits]
    omega
  have hhalf : v / 2 ^ exponentAt .binary64 v < 1 / 2 := by
    have hlt := (Int.lt_zpow_iff_log_lt (b := 2) one_lt_two (x := -1075) hv).mpr h
    have hsplit : (1 / 2 : ℚ) * 2 ^ (-1074 : Int) = (2 : ℕ) ^ (-1075 : Int) := by
      have hpred : (2 : ℚ) ^ (-1074 - 1 : Int) = 2 ^ (-1074 : Int) * 2⁻¹ :=
        zpow_sub_one₀ two_ne_zero _
      rw [Nat.cast_ofNat, mul_comm, one_div, ← hpred]
      rfl
    rw [hexponent, div_lt_iff₀ (by positivity), hsplit]
    exact hlt
  rw [nearestTo, roundedMantissa_of_lt_half (by positivity) hhalf, ofSignificand_zero]

theorem le_log_mul_ten_zpow (hm : 0 < m) (he : 0 ≤ e) :
    (m.log2 : Int) + e ≤ Int.log 2 (m * 10 ^ e : ℚ) := by
  apply (Int.zpow_le_iff_le_log (b := 2) one_lt_two (by positivity)).mp
  have hnum : ((2 : ℕ) ^ m.log2 : ℚ) ≤ m := by
    exact_mod_cast (Nat.le_log2 (Nat.ne_of_gt hm)).mp (le_refl m.log2)
  have hpower : ((2 : ℕ) : ℚ) ^ e ≤ 10 ^ e := zpow_le_zpow_left₀ he (by norm_num) (by norm_num)
  rw [zpow_add₀ (by norm_num), zpow_natCast]
  exact mul_le_mul hnum hpower (by positivity) (by positivity)

theorem log_mul_ten_zpow_le (hm : 0 < m) (he : e ≤ 0) :
    Int.log 2 (m * 10 ^ e : ℚ) ≤ m.log2 + e := by
  apply Int.lt_add_one_iff.mp
  apply (Int.lt_zpow_iff_log_lt (b := 2) one_lt_two (by positivity)).mp
  have hnum : (m : ℚ) < (2 : ℕ) ^ (m.log2 + 1) := by
    exact_mod_cast (Nat.log2_lt (Nat.ne_of_gt hm)).mp (Nat.lt_succ_self m.log2)
  have hpower : (10 : ℚ) ^ e ≤ (2 : ℕ) ^ e := by
    have hinv := inv_anti₀ (by positivity)
      (zpow_le_zpow_left₀ (neg_nonneg.mpr he) (by norm_num) (by norm_num : (2 : ℚ) ≤ 10))
    rwa [zpow_neg, zpow_neg, inv_inv, inv_inv] at hinv
  rw [add_right_comm, zpow_add₀ (by norm_num), ← Nat.cast_add_one, zpow_natCast]
  exact mul_lt_mul hnum hpower (by positivity) (by positivity)

theorem nearestTo_zero (format : Format) (sign : Sign) : nearestTo format sign 0 = .zero sign := by
  have hzero : truncated (0 / 2 ^ exponentAt format 0) = ⟨0, false, false⟩ := by
    rw [zero_div, ← Nat.cast_zero, truncated_natCast]
  rw [nearestTo, hzero]
  exact ofSignificand_zero format sign _

theorem pack_ofScientific (m : Nat) (e : Int) :
    UnpackedFloat.pack .binary64 (.ofScientific .binary64 m e) =
      UnpackedFloat.pack .binary64 (nearestTo .binary64 .positive (m * 10 ^ e)) := by
  rw [UnpackedFloat.ofScientific]
  split
  · rename_i hm
    rw [hm, Nat.cast_zero, zero_mul, nearestTo_zero]
  rename_i hm
  have hpos : 0 < m := Nat.pos_of_ne_zero hm
  have hv : (0 : ℚ) < m * 10 ^ e := by positivity
  have hbits : (2 : Int) ^ Format.binary64.exponentBits = 2048 := by rfl
  rw [hbits]
  split
  · rename_i hhuge
    have hlarge := le_log_mul_ten_zpow (e := e) hpos (by omega)
    rw [pack_nearestTo_of_large hv (by omega)]
    rfl
  split
  · rename_i htiny
    have hsmall := log_mul_ten_zpow_le (e := e) hpos (by omega)
    rw [nearestTo_of_small hv (by omega)]
  split
  · rename_i he
    rw [mul_eq_nearestTo _ hpos he]
  · rename_i he
    have hquotient : (m * 10 ^ e : ℚ) = m / (10 ^ (-e).toNat : ℕ) := by
      have hneg : e = -((-e).toNat : Int) := by omega
      nth_rewrite 1 [hneg]
      rw [zpow_neg, zpow_natCast, Nat.cast_pow]
      rfl
    rw [div_eq_nearestTo _ hpos, hquotient]

/-- The number that is read from digits and a power of ten is the nearest one. -/
theorem nearestDouble_eq (m : Nat) (e : Int) :
    Decimal.nearestDouble m e = .ofModel (.pack (nearestTo .binary64 .positive (m * 10 ^ e))) := by
  rw [Decimal.nearestDouble, Float.Model.ofScientific, Float.Model.pack, Float.Model.pack]
  simp only [pack_ofScientific]

end Decimals

end BehaviorTree
