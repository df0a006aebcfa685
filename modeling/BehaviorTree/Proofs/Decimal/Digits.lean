import BehaviorTree.Decimal.Layout
import BehaviorTree.Proofs.Rounding

/-!
# Digits read back

The digits that are found for a finite number of double precision are read as that number. A search
only takes digits that read back, and where none of few digits do, all digits of the value are taken:
these are read as the number since it is nearest to itself.
-/

namespace BehaviorTree

open Float.Model Float.Model.UnpackedFloat

section Exact

variable {sign : Sign} {m : Nat} {e : Int} {hm : 0 < m}

theorem nearestTo_of_canonical {format : Format} (hm : 0 < m)
    (he : format.targetExponent (totalExponent m e) = e) :
    nearestTo format sign (m * 2 ^ e) = .finite sign m e hm := by
  have hround : roundWithAccuracy format sign (m * 2 ^ 0) e .exact = _ :=
    roundWithAccuracy_mul_two_pow hm (by simpa using he)
  rw [← roundWithAccuracy_exact hm (by rw [exponentAt_mul_zpow hm, he])]
  simpa using hround

theorem canonical_of_unpack {b : BitVec Format.binary64.numBits}
    (h : UnpackedFloat.unpack .binary64 b = .finite sign m e hm) :
    Format.binary64.targetExponent (totalExponent m e) = e := by
  have hmin : Format.binary64.minExponent = -1074 := by rfl
  have hbias : Format.binary64.exponentBias = 1023 := by rfl
  have hmantissa : (unpackMantissa b).toNat < 2 ^ 52 := (unpackMantissa b).isLt
  simp only [Format.targetExponent, totalExponent, hmin, Format.mantissaBits]
  rw [UnpackedFloat.unpack] at h
  dsimp only at h
  split at h
  · split at h <;> cases h
  split at h
  · rename_i hzero
    split at h
    · cases h
    injection h with _ hm' he
    have hexponent : (unpackExponent b).toNat = 0 := by
      rw [hzero]
      rfl
    have hlog : m.log2 < 52 := (Nat.log2_lt (Nat.ne_of_gt hm)).mpr (hm' ▸ hmantissa)
    rw [hexponent, hbias] at he
    omega
  · rename_i hzero
    injection h with _ hm' he
    have hexponent : (unpackExponent b).toNat ≠ 0 := fun heq => hzero (BitVec.eq_of_toNat_eq heq)
    have hlog : m.log2 = 52 := by
      rw [toNat_append_one] at hm'
      change 2 ^ 52 + (unpackMantissa b).toNat = m at hm'
      rw [Nat.log2_eq_iff (Nat.ne_of_gt hm)]
      omega
    rw [hbias] at he
    omega

private theorem unpack_packComponents {format : Format} {b : BitVec format.numBits}
    (h : UnpackedFloat.unpack format b = .finite sign m e hm) (sign' : Sign) :
    UnpackedFloat.unpack format
      (packComponents format sign' (unpackExponent b) (unpackMantissa b)) =
        .finite sign' m e hm := by
  rw [UnpackedFloat.unpack] at h ⊢
  simp only [unpackExponent_packComponents, unpackMantissa_packComponents,
    unpackSign_packComponents, Sign.ofBitVec_toBitVec] at h ⊢
  split at h
  · split at h <;> cases h
  rename_i hlast
  rw [if_neg hlast]
  split at h
  · rename_i hzero
    rw [if_pos hzero]
    split at h
    · cases h
    · rename_i hmantissa
      rw [dif_neg hmantissa]
      cases h
      rfl
  · rename_i hzero
    rw [if_neg hzero]
    cases h
    rfl

theorem unpack_pack_of_unpack {b : BitVec Format.binary64.numBits}
    (h : UnpackedFloat.unpack .binary64 b = .finite sign m e hm) (sign' : Sign) :
    UnpackedFloat.unpack .binary64 (UnpackedFloat.pack .binary64 (.finite sign' m e hm)) =
      .finite sign' m e hm := by
  have hother := unpack_packComponents h sign'
  rw [← hother, pack_unpack]
  split
  · rename_i hnan
    have hnan' : UnpackedFloat.unpack .binary64
        (packComponents .binary64 sign' (unpackExponent b) (unpackMantissa b)) = .notANumber := by
      simp only [isNaNBits, unpackExponent_packComponents, unpackMantissa_packComponents,
        decide_eq_true_eq] at hnan
      simp [UnpackedFloat.unpack, hnan]
    rw [hother] at hnan'
    cases hnan'
  · exact rfl

end Exact

section Doubles

variable {x : Float} {sign : Sign} {m : Nat} {e : Int} {hm : 0 < m}

theorem eq_pack_unpack (x : Float) : x = .ofModel (.pack x.toModel.unpack) := by
  have hbits : Float.Model.pack x.toModel.unpack = x.toModel := by
    rw [Float.Model.mk.injEq]
    exact congrArg UInt64.ofBitVec (pack_unpack_of_valid x.toModel.valid)
  rw [hbits]

theorem abs_eq_pack (h : x.toModel.unpack = .finite sign m e hm) :
    x.abs = .ofModel (.pack (.finite .positive m e hm)) := by
  change Float.ofModel (.pack x.toModel.unpack.abs) = _
  rw [h]
  rfl

theorem neg_pack (h : x.toModel.unpack = .finite sign m e hm) :
    -Float.ofModel (.pack (.finite .positive m e hm)) =
      .ofModel (.pack (.finite .negative m e hm)) := by
  have hunpack : UnpackedFloat.unpack .binary64
      (UnpackedFloat.pack .binary64 (.finite .positive m e hm)) = .finite .positive m e hm :=
    unpack_pack_of_unpack h .positive
  change Float.ofModel (.pack (UnpackedFloat.unpack .binary64
    (UnpackedFloat.pack .binary64 (.finite .positive m e hm))).neg) = _
  rw [hunpack]
  rfl

end Doubles

namespace Decimal

def magnitude (d : Decimal) : ℚ := d.digits * 10 ^ d.exponent

theorem nearestDouble_congr {digits digits' : Nat} {e e' : Int}
    (h : (digits * 10 ^ e : ℚ) = digits' * 10 ^ e') :
    nearestDouble digits e = nearestDouble digits' e' := by
  rw [nearestDouble_eq, nearestDouble_eq, h]

theorem toDouble_congr {d d' : Decimal} (hnegative : d.negative = d'.negative)
    (hmagnitude : d.magnitude = d'.magnitude) : d.toDouble = d'.toDouble := by
  rw [toDouble, toDouble, hnegative, nearestDouble_congr hmagnitude]

/-- What a search finds reads back, and so do all digits of the value. -/
theorem searchGrids_of_reads (reads : Nat → Int → Prop) {readsBack : Nat → Int → Bool} {m : Nat}
    {q : Int} (hreads : ∀ digits e, readsBack digits e = true → reads digits e)
    (hexact : reads (m * Nat.pow 2 q.toNat * Nat.pow 5 (-q).toNat) (min q 0)) (grids : Nat)
    (g : Int) :
    reads (searchGrids readsBack m q grids g).1 (searchGrids readsBack m q grids g).2 := by
  induction grids generalizing g with
  | zero => exact hexact
  | succ grids ih =>
    rw [searchGrids]
    split
    · rename_i digits hfound
      have hfits := List.find?_some hfound
      exact hreads digits g hfits
    · exact ih (g - 1)

theorem withoutTrailingZeros_value (fuel : Nat) (d : Nat × Int) :
    ((withoutTrailingZeros fuel d).1 * 10 ^ (withoutTrailingZeros fuel d).2 : ℚ) =
      d.1 * 10 ^ d.2 := by
  induction fuel generalizing d with
  | zero => rfl
  | succ fuel ih =>
    obtain ⟨digits, e⟩ := d
    rw [withoutTrailingZeros]
    split
    · rename_i hzero
      have hdigits : (digits : ℚ) = (digits / 10 : ℕ) * 10 := by
        exact_mod_cast (Nat.div_mul_cancel (Nat.dvd_of_mod_eq_zero hzero.1)).symm
      rw [ih]
      dsimp only
      rw [zpow_add_one₀ (by norm_num), hdigits]
      ring
    · rfl

theorem all_digits (m : Nat) (q : Int) :
    ((m * Nat.pow 2 q.toNat * Nat.pow 5 (-q).toNat : ℕ) : ℚ) * 10 ^ min q 0 = m * 2 ^ q := by
  rcases Int.le_total 0 q with hq | hq
  · obtain ⟨k, rfl⟩ := Int.eq_ofNat_of_zero_le hq
    have hnone : (-(k : Int)).toNat = 0 := by omega
    rw [hnone, min_eq_right hq]
    simp
  · obtain ⟨k, hk⟩ := Int.eq_ofNat_of_zero_le (neg_nonneg.mpr hq)
    obtain rfl : q = -(k : Int) := by omega
    have hnone : (-(k : Int)).toNat = 0 := by omega
    have hten : (10 : ℚ) ^ k = 2 ^ k * 5 ^ k := by rw [← mul_pow]; norm_num
    rw [hnone, min_eq_left hq, zpow_neg, zpow_neg, zpow_natCast, zpow_natCast, hten, neg_neg,
      Int.toNat_natCast]
    simp only [Nat.pow_eq, Nat.pow_zero, Nat.mul_one, Nat.cast_mul, Nat.cast_pow, Nat.cast_ofNat]
    field_simp

theorem eq_of_toBits {x y : Float} (h : (x.toBits == y.toBits) = true) : x = y := by
  obtain ⟨⟨bits, hbits⟩⟩ := x
  obtain ⟨⟨bits', hbits'⟩⟩ := y
  obtain rfl : bits = bits' := eq_of_beq h
  rfl

theorem nearestDouble_shortest {x : Float} {sign : Sign} {m : Nat} {q : Int} {hm : 0 < m}
    (h : x.toModel.unpack = .finite sign m q hm) :
    let found := shortest (fun d e => (nearestDouble d e).toBits == x.abs.toBits) m q
    nearestDouble found.1 found.2 = x.abs := by
  have hcanonical : Format.binary64.targetExponent (totalExponent m q) = q := canonical_of_unpack h
  have hexact : nearestDouble (m * Nat.pow 2 q.toNat * Nat.pow 5 (-q).toNat) (min q 0) = x.abs := by
    rw [nearestDouble_eq, all_digits, nearestTo_of_canonical hm hcanonical, abs_eq_pack h]
  have hsearch := searchGrids_of_reads (nearestDouble · · = x.abs) (fun _ _ => eq_of_toBits) hexact
    17 (leadingPower m q)
  exact (nearestDouble_congr (withoutTrailingZeros_value _ _)).trans hsearch

/-- A finite number is read back from its digits. -/
theorem toDouble_ofDouble {x : Float} (h : x.isFinite) : (ofDouble x).toDouble = x := by
  have hx := eq_pack_unpack x
  change x.toModel.unpack.isFinite = true at h
  rw [ofDouble]
  split
  · rename_i sign m q hm hfinite
    have hread := nearestDouble_shortest hfinite
    dsimp only at hread ⊢
    rw [hfinite] at hx
    rw [toDouble]
    dsimp only
    rw [hread, abs_eq_pack hfinite]
    cases sign with
    | negative => exact (neg_pack hfinite).trans hx.symm
    | positive => exact hx.symm
  · rename_i sign hzero
    rw [hzero] at hx
    rw [hx]
    cases sign <;> decide
  · rename_i sign hinfinite
    rw [hinfinite] at h
    cases h
  · rename_i hnan
    rw [hnan] at h
    cases h

end Decimal

end BehaviorTree
