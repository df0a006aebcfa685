import BehaviorTree.Proofs.Decimal.Digits

/-!
# Whole numbers

In double precision a whole number is the number that its digits are read as. Single precision has
fewer digits: a whole number with more of them is rounded to a multiple of a power of two, and the
count that is read from it is that multiple.
-/

namespace BehaviorTree

open Float.Model Float.Model.UnpackedFloat

section Nearest

variable {format : Format} {sign : Sign} {n : Nat}

theorem aligned_natCast {bits : Nat} (hlog : n.log2 ≤ bits) :
    ((n * 2 ^ (bits - n.log2) : ℕ) : ℚ) * 2 ^ (n.log2 - bits : Int) = n := by
  have hexponent : ((bits - n.log2 : Nat) : Int) + (n.log2 - bits) = 0 := by omega
  rw [Nat.cast_mul, Nat.cast_pow, mul_assoc, ← zpow_natCast, Nat.cast_ofNat,
    ← zpow_add₀ two_ne_zero, hexponent, zpow_zero, mul_one]

theorem nearestTo_natCast (hpos : 0 < n) (hlog : n.log2 ≤ format.mantissaBitsWithoutImplicit)
    (hmin : format.minExponent ≤ -format.mantissaBitsWithoutImplicit) :
    nearestTo format sign n = .finite sign (n * 2 ^ (format.mantissaBitsWithoutImplicit - n.log2))
      (n.log2 - format.mantissaBitsWithoutImplicit) (Nat.mul_pos hpos (Nat.two_pow_pos _)) := by
  nth_rewrite 1 [← aligned_natCast hlog]
  apply nearestTo_of_canonical
  rw [totalExponent, log2_mul_two_pow hpos]
  simp only [Format.targetExponent, Format.mantissaBits]
  omega

theorem ofSignificand_mul_two_pow {m k : Nat} {e : Int} (hm : 0 < m)
    (he : format.targetExponent (totalExponent m (e + k)) = e + k) :
    ofSignificand format sign (m * 2 ^ k) e = .finite sign m (e + k) hm := by
  simp only [ofSignificand, shiftToTargetExponent_mul_two_pow hm he, dif_neg (Nat.ne_of_gt hm)]

end Nearest

section Double

variable {n : Nat}

theorem unpack_one : (Float.ofBits 0x3FF0000000000000).toModel.unpack =
    .finite .positive (2 ^ 52) (-52) (by decide) := by
  rfl

theorem mul_one_eq_nearestTo {m : Nat} (hm : 0 < m) (e : Int) (h) :
    UnpackedFloat.mul .binary64 (.finite .positive m e hm) (.finite .positive (2 ^ 52) (-52) h) =
      nearestTo .binary64 .positive (m * 2 ^ e) := by
  have hpos : 0 < m * 2 ^ 52 := Nat.mul_pos hm h
  have hvalue : ((m * 2 ^ 52 : ℕ) : ℚ) * 2 ^ (e + -52) = m * 2 ^ e := by
    rw [zpow_add₀ two_ne_zero]
    push_cast
    field_simp
    norm_num
  rw [← hvalue]
  apply roundWithAccuracy_exact hpos
  rw [exponentAt_mul_zpow hpos, totalExponent, log2_mul_two_pow hm]
  simp only [Format.targetExponent, Format.mantissaBits]
  omega

private theorem aligned_double (hlog : n.log2 ≤ 52) :
    ((n * 2 ^ (52 - n.log2) : ℕ) : ℚ) * 2 ^ (n.log2 - 52 : Int) = n :=
  aligned_natCast hlog

private theorem nearestDouble_natCast (hpos : 0 < n) (hlog : n.log2 ≤ 52) :
    nearestTo .binary64 .positive n = .finite .positive (n * 2 ^ (52 - n.log2)) (n.log2 - 52)
      (Nat.mul_pos hpos (Nat.two_pow_pos _)) :=
  nearestTo_natCast hpos hlog (by decide)

theorem unpack_pack_natCast (hpos : 0 < n) (hlog : n.log2 ≤ 52) :
    UnpackedFloat.unpack .binary64 (UnpackedFloat.pack .binary64 (nearestTo .binary64 .positive n)) =
      nearestTo .binary64 .positive n := by
  rw [nearestDouble_natCast hpos hlog]
  apply unpack_pack_normal
  · change (n * 2 ^ (52 - n.log2)).log2 = 52
    rw [log2_mul_two_pow hpos]
    omega
  · change 0 < (n.log2 - 52 : Int) + 1023 + 52
    omega
  · change (n.log2 - 52 : Int) + 1023 + 52 + 1 < 2048
    omega

/-- A whole number is the same in double precision as the number that its digits are read as. -/
theorem ofNat_eq_nearestDouble (n : Nat) : Float.ofNat n = Decimal.nearestDouble n 0 := by
  rw [Float.ofNat]
  show Float.ofScientific n false 0 = _
  rw [Float.ofScientific]
  split
  · rename_i hsmall
    change n.toUInt64.toFloat * Float.ofBits 0x3FF0000000000000 = _
    rcases Nat.eq_zero_or_pos n with rfl | hpos
    · decide +kernel
    have hlog : n.log2 ≤ 52 := Nat.le_of_lt_succ ((Nat.log2_lt (Nat.ne_of_gt hpos)).mpr hsmall.1)
    have hword : n.toUInt64.toNat = n := Nat.mod_eq_of_lt (by omega)
    have hround : UnpackedFloat.ofUInt64 .binary64 n.toUInt64 = nearestTo .binary64 .positive n := by
      rw [UnpackedFloat.ofUInt64, hword, UnpackedFloat.ofNat, UnpackedFloat.ofInt,
        UnpackedFloat.normalize, Int.compare_eq_gt.mpr (by omega)]
      have hnearest : UnpackedFloat.round .binary64 .positive n 0 = _ :=
        round_eq_nearestTo hpos .positive 0
      simpa using hnearest
    change Float.ofModel (.pack (UnpackedFloat.mul .binary64
      (UnpackedFloat.unpack .binary64 (UnpackedFloat.pack .binary64
        (UnpackedFloat.ofUInt64 .binary64 n.toUInt64)))
      (Float.ofBits 0x3FF0000000000000).toModel.unpack)) = _
    rw [hround, unpack_pack_natCast hpos hlog, nearestDouble_natCast hpos hlog, unpack_one,
      mul_one_eq_nearestTo, aligned_double hlog, nearestDouble_eq, zpow_zero, mul_one]
  · rfl

/-- Narrowing a whole number of double precision rounds it to single precision. -/
theorem narrow_nearestDouble (hpos : 0 < n) (hlog : n.log2 ≤ 52) :
    narrow (Decimal.nearestDouble n 0) = .ofModel (.pack (nearestTo .binary32 .positive n)) := by
  rw [nearestDouble_eq, zpow_zero, mul_one, narrow]
  change Float32.ofModel (.pack (nearestIn .binary32 (UnpackedFloat.unpack .binary64
    (UnpackedFloat.pack .binary64 (nearestTo .binary64 .positive n))))) = _
  rw [unpack_pack_natCast hpos hlog, nearestDouble_natCast hpos hlog, nearestIn,
    round_eq_nearestTo (Nat.mul_pos hpos (Nat.two_pow_pos _)), aligned_double hlog]

end Double

section Single

variable {n : Nat}

/-- The multiple of a grain that is nearest to a whole number; between two of them the one that is
an even number of grains. -/
def nearestMultiple (grain n : Nat) : Nat :=
  if 2 * (n % grain) < grain ∨ 2 * (n % grain) = grain ∧ n / grain % 2 = 0 then n / grain * grain
  else (n / grain + 1) * grain

/-- The distance between the single-precision numbers around a whole number, unless it is a part of
one. -/
def singleGrain (n : Nat) : Nat := 2 ^ (n.log2 - 23)

theorem singleGrain_pos (n : Nat) : 0 < singleGrain n := Nat.two_pow_pos _

theorem roundedMantissa_mul {grain : Nat} (hgrain : 0 < grain) (n : Nat) :
    (truncated (n / grain : ℚ)).roundedMantissa * grain = nearestMultiple grain n := by
  rw [← ofMantissaAndAccuracy_div n hgrain, nearestMultiple, accuracyOfFraction]
  generalize n / grain = below
  generalize n % grain = rest
  by_cases hrest : rest = 0
  · rw [if_pos hrest, if_pos (.inl (by omega))]
    rfl
  rw [if_neg hrest]
  rcases Nat.lt_trichotomy (2 * rest) grain with h | h | h
  · rw [Nat.compare_eq_lt.mpr h, if_pos (.inl h)]
    rfl
  · rw [Nat.compare_eq_eq.mpr h]
    change (below + below % 2) * grain = _
    rcases Nat.mod_two_eq_zero_or_one below with heven | hodd
    · rw [heven, if_pos (.inr ⟨h, rfl⟩), Nat.add_zero]
    · rw [hodd, if_neg (by omega)]
  · rw [Nat.compare_eq_gt.mpr h, if_neg (by omega)]
    rfl

theorem nearestMultiple_of_dvd {grain : Nat} (hgrain : 0 < grain) (h : grain ∣ n) :
    nearestMultiple grain n = n := by
  rw [nearestMultiple, Nat.mod_eq_zero_of_dvd h, if_pos (.inl (by omega)), Nat.div_mul_cancel h]

theorem nearestMultiple_eq_mul (grain n : Nat) :
    ∃ q, nearestMultiple grain n = q * grain ∧ n / grain ≤ q ∧ q ≤ n / grain + 1 := by
  rw [nearestMultiple]
  split
  · exact ⟨_, rfl, le_rfl, Nat.le_succ _⟩
  · exact ⟨_, rfl, Nat.le_succ _, le_rfl⟩

theorem nearestMultiple_eq_self_iff {grain : Nat} (hgrain : 0 < grain) :
    nearestMultiple grain n = n ↔ grain ∣ n := by
  refine ⟨fun h => ?_, nearestMultiple_of_dvd hgrain⟩
  obtain ⟨q, hq, -⟩ := nearestMultiple_eq_mul grain n
  exact ⟨q, by rw [Nat.mul_comm, ← hq, h]⟩

theorem nearestMultiple_near {grain : Nat} (hgrain : 0 < grain) (n : Nat) :
    2 * n ≤ 2 * nearestMultiple grain n + grain ∧ 2 * nearestMultiple grain n ≤ 2 * n + grain := by
  have hn := Nat.div_add_mod' n grain
  have hrest := Nat.mod_lt n hgrain
  have hnext : (n / grain + 1) * grain = n / grain * grain + grain := Nat.succ_mul _ _
  rw [nearestMultiple]
  split <;> omega

private theorem exists_ofSignificand_single {q : Nat} (k : Nat) (hlow : 2 ^ 23 ≤ q)
    (hhigh : q ≤ 2 ^ 24) :
    ∃ m e hm, ofSignificand .binary32 .positive q k = .finite .positive m e hm ∧ m.log2 = 23 ∧
      (m * 2 ^ e : ℚ) = (q * 2 ^ k : ℕ) ∧ k ≤ e ∧ e ≤ k + 1 := by
  have htarget : ∀ {m : Nat} {e : Int}, m.log2 = 23 → 0 ≤ e →
      Format.binary32.targetExponent (totalExponent m e) = e := by
    intro m e hdigits he
    simp only [Format.targetExponent, totalExponent, Format.minExponent, Format.mantissaBits,
      hdigits]
    omega
  rcases Nat.lt_or_ge q (2 ^ 24) with hlt | hge
  · have hpos : 0 < q := by omega
    have hdigits : q.log2 = 23 := (Nat.log2_eq_iff (Nat.ne_of_gt hpos)).mpr ⟨hlow, hlt⟩
    refine ⟨q, k, hpos, ?_, hdigits, by simp, le_rfl, by omega⟩
    simpa using ofSignificand_mul_two_pow (k := 0) hpos (htarget hdigits (by omega))
  · obtain rfl : q = 2 ^ 23 * 2 ^ 1 := by omega
    have hdigits : (2 ^ 23).log2 = 23 := by decide
    refine ⟨2 ^ 23, k + 1, by decide, ?_, hdigits, ?_, by omega, le_rfl⟩
    · exact ofSignificand_mul_two_pow (by decide) (htarget hdigits (by omega))
    · rw [zpow_add_one₀ two_ne_zero, zpow_natCast]
      push_cast
      ring

theorem exists_nearestTo_single (hpos : 0 < n) :
    ∃ m e hm, nearestTo .binary32 .positive n = .finite .positive m e hm ∧ m.log2 = 23 ∧
      (m * 2 ^ e : ℚ) = nearestMultiple (singleGrain n) n ∧
      (n.log2 - 23 : Int) ≤ e ∧ e ≤ n.log2 - 22 := by
  have hmin : Format.binary32.minExponent = -149 := by rfl
  by_cases hlog : n.log2 ≤ 23
  · have hgrain : singleGrain n = 1 := by rw [singleGrain, Nat.sub_eq_zero_of_le hlog, Nat.pow_zero]
    refine ⟨n * 2 ^ (23 - n.log2), n.log2 - 23, Nat.mul_pos hpos (Nat.two_pow_pos _),
      nearestTo_natCast hpos hlog (by decide), ?_, ?_, by omega, by omega⟩
    · rw [log2_mul_two_pow hpos]
      omega
    · rw [hgrain, nearestMultiple_of_dvd one_pos (one_dvd n)]
      exact aligned_natCast hlog
  · obtain ⟨k, hk⟩ : ∃ k, n.log2 = 23 + k := Nat.exists_eq_add_of_le (by omega)
    have hgrain : singleGrain n = 2 ^ k := by rw [singleGrain, hk, Nat.add_sub_cancel_left]
    have hexponent : exponentAt .binary32 n = k := by
      have htarget : exponentAt .binary32 (n * 2 ^ (0 : Int)) = _ := exponentAt_mul_zpow hpos 0
      rw [zpow_zero, mul_one] at htarget
      rw [htarget, totalExponent, hk]
      simp only [Format.targetExponent, hmin, Format.mantissaBits]
      omega
    have hround : nearestTo .binary32 .positive n =
        ofSignificand .binary32 .positive (truncated (n / (2 ^ k : ℕ) : ℚ)).roundedMantissa k := by
      rw [nearestTo, hexponent, zpow_natCast, Nat.cast_pow, Nat.cast_ofNat]
    obtain ⟨q, hq, hlow, hhigh⟩ := nearestMultiple_eq_mul (2 ^ k) n
    have hrounded := roundedMantissa_mul (Nat.two_pow_pos k) n
    rw [hq] at hrounded
    rw [hround, Nat.eq_of_mul_eq_mul_right (Nat.two_pow_pos k) hrounded, hgrain, hq]
    obtain ⟨hleast, hmost⟩ := (Nat.log2_eq_iff (Nat.ne_of_gt hpos)).mp hk
    have hbelow : 2 ^ 23 ≤ n / 2 ^ k := by
      rwa [Nat.le_div_iff_mul_le (Nat.two_pow_pos k), ← Nat.pow_add]
    have habove : n / 2 ^ k < 2 ^ 24 := by
      rw [Nat.div_lt_iff_lt_mul (Nat.two_pow_pos k), ← Nat.pow_add]
      rwa [Nat.add_right_comm] at hmost
    obtain ⟨m, e, hm, hfinite, hdigits, hvalue, he, he'⟩ :=
      exists_ofSignificand_single (q := q) k (by omega) (by omega)
    exact ⟨m, e, hm, hfinite, hdigits, hvalue, by omega, by omega⟩

theorem roundMagnitude_of_natCast {m N : Nat} {e : Int} (h : (m * 2 ^ e : ℚ) = N) :
    roundMagnitude m e = N := by
  rw [roundMagnitude]
  split
  · rename_i he
    obtain ⟨k, rfl⟩ := Int.eq_ofNat_of_zero_le he
    rw [zpow_natCast] at h
    exact_mod_cast h
  · rename_i he
    obtain ⟨k, hk⟩ := Int.eq_ofNat_of_zero_le (neg_nonneg.mpr (Int.not_le.mp he).le)
    obtain rfl : e = -(k : Int) := by omega
    rw [zpow_neg, zpow_natCast, ← div_eq_mul_inv, div_eq_iff (by positivity)] at h
    have hm : m = N * 2 ^ k := by exact_mod_cast h
    have hnumerator : 2 * (N * 2 ^ k) + 2 ^ k = 2 ^ k * (2 * N + 1) := by ring
    rw [neg_neg, Int.toNat_natCast, hm, Nat.pow_eq, Nat.pow_eq, Nat.pow_succ, hnumerator,
      Nat.mul_div_mul_left _ _ (Nat.two_pow_pos k)]
    omega

theorem countOf_eq {x : Float32} {m : Nat} {e : Int} {hm : 0 < m}
    (h : x.toModel.unpack = .finite .positive m e hm) :
    countOf x = .ofNatClamp (roundMagnitude m e) := by
  rw [countOf, h]

/-- The count that is read from a whole number is the multiple of its grain that is nearest to it. -/
theorem countOf_narrow (hpos : 0 < n) (hlog : n.log2 ≤ 52) :
    countOf (narrow (Decimal.nearestDouble n 0)) =
      .ofNatClamp (nearestMultiple (singleGrain n) n) := by
  obtain ⟨m, e, hm, hnearest, hdigits, hvalue, hlow, hhigh⟩ := exists_nearestTo_single hpos
  have hunpack : (Float32.ofModel (.pack (.finite .positive m e hm))).toModel.unpack =
      .finite .positive m e hm := by
    change UnpackedFloat.unpack .binary32 (UnpackedFloat.pack .binary32 _) = _
    apply unpack_pack_normal hdigits
    · change 0 < e + 127 + 23
      omega
    · change e + 127 + 23 + 1 < 256
      omega
  rw [narrow_nearestDouble hpos hlog, hnearest, countOf_eq hunpack, roundMagnitude_of_natCast hvalue]

end Single

end BehaviorTree
