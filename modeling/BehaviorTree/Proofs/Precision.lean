import BehaviorTree.Precision
import Mathlib

/-!
# Single precision within double precision

A finite single-precision number has the same value in double precision, so that it is the number
nearest to it in single precision again.
-/

namespace BehaviorTree

open Float.Model Float.Model.UnpackedFloat

/-- Whether a significand and an exponent are those of a single-precision number. -/
structure IsSingle (m : Nat) (e : Int) : Prop where
  pos : 0 < m
  lt : m < 2 ^ 24
  low : -149 ≤ e
  high : e ≤ 104
  normal : -149 < e → 2 ^ 23 ≤ m

section Rounding

variable {format : Format} {sign : Sign} {m k : Nat} {e : Int}

theorem log2_mul_two_pow (hm : 0 < m) : (m * 2 ^ k).log2 = m.log2 + k := by
  induction k with
  | zero => simp
  | succ k ih =>
    rw [Nat.pow_succ, ← Nat.mul_assoc, Nat.mul_comm, Nat.log2_two_mul, ih, Nat.add_assoc]
    exact Nat.ne_of_gt (Nat.mul_pos hm (Nat.two_pow_pos k))

/-- A value does not depend on the significand and the exponent that it is written with. -/
private theorem totalExponent_mul_two_pow (hm : 0 < m) :
    totalExponent (m * 2 ^ k) e = totalExponent m (e + k) := by
  rw [totalExponent, totalExponent, log2_mul_two_pow hm]
  omega

private theorem shiftRight_mul_two_pow (m k : Nat) :
    (⟨m * 2 ^ k, false, false⟩ : ExtendedMantissa) >>> k = ⟨m, false, false⟩ := by
  change Nat.repeat ExtendedMantissa.shiftRightOne k _ = _
  induction k generalizing m with
  | zero => simp [Nat.repeat]
  | succ k ih =>
    rw [Nat.repeat, Nat.pow_succ', ← Nat.mul_assoc, ih (m * 2)]
    simp [ExtendedMantissa.shiftRightOne]

theorem shiftToTargetExponent_mul_two_pow (hm : 0 < m)
    (he : format.targetExponent (totalExponent m (e + k)) = e + k) :
    shiftToTargetExponent format (m * 2 ^ k) e .exact = (⟨m, false, false⟩, e + k) := by
  have hshift : (e + k - e).toNat = k := by omega
  simp only [shiftToTargetExponent, shiftToExponent, totalExponent_mul_two_pow hm, he, hshift,
    ExtendedMantissa.ofMantissaAndAccuracy, shiftRight_mul_two_pow]

theorem roundWithAccuracy_mul_two_pow (hm : 0 < m)
    (he : format.targetExponent (totalExponent m (e + k)) = e + k) :
    roundWithAccuracy format sign (m * 2 ^ k) e .exact = .finite sign m (e + k) hm := by
  have hagain := shiftToTargetExponent_mul_two_pow (k := 0) hm (e := e + k) (by simpa using he)
  simp only [Nat.pow_zero, Nat.mul_one, Int.natCast_zero, Int.add_zero] at hagain
  simp only [roundWithAccuracy, shiftToTargetExponent_mul_two_pow hm he,
    ExtendedMantissa.roundedMantissa, ExtendedMantissa.accuracy, Accuracy.roundToNearestEven, hagain,
    dif_neg (Nat.ne_of_gt hm)]

theorem round_mul_two_pow (hm : 0 < m)
    (he : format.targetExponent (totalExponent m (e + k)) = e + k) :
    round format sign (m * 2 ^ k) e = .finite sign m (e + k) hm := by
  have hshift : (e - (e + k)).toNat = 0 := by omega
  simp only [UnpackedFloat.round, totalExponent_mul_two_pow hm, he, decreaseExponent, hshift,
    Nat.shiftLeft_zero, Int.natCast_zero, Int.sub_zero]
  exact roundWithAccuracy_mul_two_pow hm he

theorem round_of_short (hm : 0 < m) (he : format.targetExponent (totalExponent m e) = e - k) :
    round format sign m e =
      .finite sign (m * 2 ^ k) (e - k) (Nat.mul_pos hm (Nat.two_pow_pos k)) := by
  have hpos : 0 < m * 2 ^ k := Nat.mul_pos hm (Nat.two_pow_pos k)
  have hshift : (e - (e - k)).toNat = k := by omega
  have htarget : format.targetExponent (totalExponent (m * 2 ^ k) (e - k)) = e - k := by
    rw [totalExponent_mul_two_pow hm, Int.sub_add_cancel, he]
  have hround : roundWithAccuracy format sign (m * 2 ^ k) (e - k) .exact =
      .finite sign (m * 2 ^ k) (e - k) hpos := by
    simpa using roundWithAccuracy_mul_two_pow (k := 0) hpos (by simpa using htarget)
  simp only [UnpackedFloat.round, he, decreaseExponent, hshift, Nat.shiftLeft_eq, hround]

end Rounding

namespace IsSingle

variable {m : Nat} {e : Int}

theorem log2_lt (h : IsSingle m e) : m.log2 < 24 := (Nat.log2_lt (Nat.ne_of_gt h.pos)).mpr h.lt

theorem target (h : IsSingle m e) :
    Format.binary32.targetExponent (totalExponent m e) = e := by
  have hlt := h.log2_lt
  have hlow := h.low
  simp only [Format.targetExponent, totalExponent, Format.minExponent, Format.mantissaBits]
  by_cases he : -149 < e
  · have hlog := (Nat.le_log2 (Nat.ne_of_gt h.pos)).mpr (h.normal he)
    omega
  · omega

theorem round_double (h : IsSingle m e) (sign : Sign) :
    round .binary64 sign m e = .finite sign (m * 2 ^ (52 - m.log2)) (e - (52 - m.log2 : Nat))
      (Nat.mul_pos h.pos (Nat.two_pow_pos _)) := by
  apply round_of_short h.pos
  have hlt := h.log2_lt
  have hlow := h.low
  simp only [Format.targetExponent, totalExponent, Format.minExponent, Format.mantissaBits]
  omega

theorem round_single (h : IsSingle m e) (sign : Sign) :
    round .binary32 sign (m * 2 ^ (52 - m.log2)) (e - (52 - m.log2 : Nat)) =
      .finite sign m e h.pos := by
  rw [round_mul_two_pow h.pos (by rw [Int.sub_add_cancel]; exact h.target)]
  simp only [Int.sub_add_cancel]

end IsSingle

section Packing

theorem toNat_append_one {bits : Nat} (v : BitVec bits) :
    (1#1 ++ v).toNat = 2 ^ bits + v.toNat := by
  rw [BitVec.toNat_append, ← Nat.shiftLeft_add_eq_or_of_lt v.isLt]
  simp [Nat.shiftLeft_eq]

variable {b : BitVec Format.binary32.numBits}

/-- The three kinds of finite numbers: zeros, those with fewer digits than a significand has, and
those whose significand starts with a digit that is not packed. -/
private theorem unpack_finite (h : (UnpackedFloat.unpack .binary32 b).isFinite) :
    UnpackedFloat.unpack .binary32 b = .zero (.ofBitVec (unpackSign b)) ∨
      (∃ hpos, UnpackedFloat.unpack .binary32 b =
        .finite (.ofBitVec (unpackSign b)) (unpackMantissa b).toNat (-149) hpos) ∨
      (0 < (unpackExponent b).toNat ∧ (unpackExponent b).toNat < 255 ∧ ∃ hpos,
        UnpackedFloat.unpack .binary32 b = .finite (.ofBitVec (unpackSign b))
          (2 ^ 23 + (unpackMantissa b).toNat) ((unpackExponent b).toNat - 150) hpos) := by
  rw [UnpackedFloat.unpack] at h ⊢
  dsimp only at h ⊢
  split at h
  · split at h <;> exact Bool.noConfusion h
  · rename_i hlast
    rw [if_neg hlast]
    by_cases hzero : unpackExponent b = 0#_
    · rw [if_pos hzero]
      by_cases hmantissa : unpackMantissa b = 0#_
      · rw [dif_pos hmantissa]
        exact .inl rfl
      · have hpos : 0 < (unpackMantissa b).toNat :=
          Nat.pos_of_ne_zero fun heq => hmantissa (BitVec.eq_of_toNat_eq heq)
        refine .inr (.inl ⟨hpos, ?_⟩)
        rw [dif_neg hmantissa]
        simp only [hzero]
        rfl
    · have hlt : (unpackExponent b).toNat < 2 ^ 8 := (unpackExponent b).isLt
      have hnonzero : (unpackExponent b).toNat ≠ 0 := fun heq => hzero (BitVec.eq_of_toNat_eq heq)
      have hnotlast : (unpackExponent b).toNat ≠ 255 := fun heq => hlast (BitVec.eq_of_toNat_eq heq)
      refine .inr (.inr ⟨by omega, by omega, by omega, ?_⟩)
      rw [if_neg hzero]
      simp only [toNat_append_one]
      rfl

private theorem isSingle_of_unpack (h : (UnpackedFloat.unpack .binary32 b).isFinite) :
    (∃ sign, UnpackedFloat.unpack .binary32 b = .zero sign) ∨
      ∃ sign m e, ∃ hm : IsSingle m e,
        UnpackedFloat.unpack .binary32 b = .finite sign m e hm.pos := by
  have hmantissa : (unpackMantissa b).toNat < 2 ^ 23 := (unpackMantissa b).isLt
  obtain hzero | ⟨hpos, hsmall⟩ | ⟨hlow, hhigh, hpos, hnormal⟩ := unpack_finite h
  · exact .inl ⟨_, hzero⟩
  · exact .inr ⟨_, _, _, ⟨hpos, by omega, by omega, by omega, by omega⟩, hsmall⟩
  · exact .inr ⟨_, _, _, ⟨hpos, by omega, by omega, by omega, by omega⟩, hnormal⟩

theorem unpack_pack_normal {format : Format} {sign : Sign} {m : Nat} {e : Int} {hpos : 0 < m}
    (hlog : m.log2 = format.mantissaBitsWithoutImplicit)
    (hlow : 0 < e + format.exponentBias + format.mantissaBitsWithoutImplicit)
    (hhigh : e + format.exponentBias + format.mantissaBitsWithoutImplicit + 1 <
      2 ^ format.exponentBits) :
    UnpackedFloat.unpack format (UnpackedFloat.pack format (.finite sign m e hpos)) =
      .finite sign m e hpos := by
  obtain ⟨hdigits, hdigits'⟩ := (Nat.log2_eq_iff (Nat.ne_of_gt hpos)).mp hlog
  obtain ⟨biased, hbiased⟩ := Int.eq_ofNat_of_zero_le hlow.le
  rw [hbiased] at hlow hhigh
  have hhigh' : biased + 1 < 2 ^ format.exponentBits := by exact_mod_cast hhigh
  have hexponent : (BitVec.ofNat format.exponentBits biased).toNat = biased :=
    (BitVec.toNat_ofNat biased _).trans (Nat.mod_eq_of_lt (by omega))
  have hlast : BitVec.ofNat format.exponentBits biased ≠ -1#(format.exponentBits) := by
    intro heq
    rw [heq, BitVec.neg_one_eq_allOnes, BitVec.toNat_allOnes] at hexponent
    omega
  have hzero : BitVec.ofNat format.exponentBits biased ≠ 0#(format.exponentBits) := by
    intro heq
    rw [heq, BitVec.toNat_ofNat, Nat.zero_mod] at hexponent
    omega
  have hmantissa :
      (1#1 ++ BitVec.ofNat format.mantissaBitsWithoutImplicit m).toNat = m := by
    rw [Nat.pow_succ] at hdigits'
    rw [toNat_append_one, BitVec.toNat_ofNat, Nat.mod_eq_sub_mod hdigits,
      Nat.mod_eq_of_lt (by omega), Nat.add_sub_cancel' hdigits]
  rw [UnpackedFloat.pack, hbiased, Int.toNat_natCast, if_neg (by omega),
    if_pos (by rw [hlog, Format.mantissaBits, Nat.add_comm]), UnpackedFloat.unpack]
  simp only [unpackExponent_packComponents, unpackMantissa_packComponents,
    unpackSign_packComponents, Sign.ofBitVec_toBitVec]
  rw [if_neg hlast, if_neg hzero]
  simp only [hmantissa, hexponent, finite.injEq, true_and]
  omega

end Packing

/-- What a number of single precision is in double precision. -/
private theorem unpack_widen (x : Float32) (hx : x.isFinite) :
    (widen x).toModel.unpack = nearestIn .binary64 x.toModel.unpack := by
  change UnpackedFloat.unpack .binary64 (UnpackedFloat.pack .binary64
    (nearestIn .binary64 (UnpackedFloat.unpack .binary32 x.toModel.toBits.toBitVec))) =
      nearestIn .binary64 (UnpackedFloat.unpack .binary32 x.toModel.toBits.toBitVec)
  obtain ⟨sign, hzero⟩ | ⟨sign, m, e, hm, hfinite⟩ := isSingle_of_unpack hx
  · rw [hzero]
    exact unpack_packedZero
  · have hlog := hm.log2_lt
    have hlow := hm.low
    have hhigh := hm.high
    rw [hfinite, nearestIn, hm.round_double]
    apply unpack_pack_normal
    · change (m * 2 ^ (52 - m.log2)).log2 = 52
      rw [log2_mul_two_pow hm.pos]
      omega
    · change 0 < (e - (52 - m.log2 : Nat) : Int) + 1023 + 52
      omega
    · change (e - (52 - m.log2 : Nat) : Int) + 1023 + 52 + 1 < 2048
      omega

theorem isFinite_widen {x : Float32} (hx : x.isFinite) : (widen x).isFinite := by
  change (widen x).toModel.unpack.isFinite = true
  obtain ⟨sign, hzero⟩ | ⟨sign, m, e, hm, hfinite⟩ := isSingle_of_unpack hx
  · rw [unpack_widen x hx, Float32.Model.unpack, hzero]
    rfl
  · rw [unpack_widen x hx, Float32.Model.unpack, hfinite, nearestIn, hm.round_double]
    rfl

theorem isFinite_of_widen {x : Float32} (h : (widen x).isFinite) : x.isFinite := by
  change (UnpackedFloat.unpack .binary64 (UnpackedFloat.pack .binary64
    (nearestIn .binary64 x.toModel.unpack))).isFinite = true at h
  change x.toModel.unpack.isFinite = true
  cases hx : x.toModel.unpack with
  | notANumber =>
    rw [hx] at h
    exact absurd h (by decide)
  | infinity sign =>
    rw [hx] at h
    cases sign <;> exact absurd h (by decide)
  | zero sign => rfl
  | finite sign m e hm => rfl

/-- Nothing of a finite number is lost on the way to double precision. -/
theorem narrow_widen {x : Float32} (hx : x.isFinite) : narrow (widen x) = x := by
  have hnearest : nearestIn .binary32 (nearestIn .binary64 x.toModel.unpack) =
      x.toModel.unpack := by
    rw [Float32.Model.unpack]
    obtain ⟨sign, hzero⟩ | ⟨sign, m, e, hm, hfinite⟩ := isSingle_of_unpack hx
    · rw [hzero]
      rfl
    · rw [hfinite, nearestIn, hm.round_double, nearestIn, hm.round_single]
  have hbits : Float32.Model.pack x.toModel.unpack = x.toModel := by
    rw [Float32.Model.mk.injEq]
    exact congrArg UInt32.ofBitVec (pack_unpack_of_valid x.toModel.valid)
  rw [narrow, unpack_widen x hx, hnearest, hbits]

end BehaviorTree
