import BehaviorTree.Proofs.Decimal.Whole
import BehaviorTree.Proofs.Json.Number
import BehaviorTree.Proofs.Text.Parts
import BehaviorTree.Tree.Settings

/-!
# Configured counts

A count is set with a whole number or with its digits. It is read in single precision, which leaves it
as it is when it has few binary digits, and else rounds it.
-/

namespace BehaviorTree

/-- The count that is read where a whole number is set: the nearest number of single precision, as far as
it fits 32 bits. -/
def readCount (c : Nat) : Nat := min (nearestMultiple (singleGrain c) c) (2 ^ 32 - 1)

section Reading

variable {c : Nat}

theorem singleGrain_le (hpos : 0 < c) : singleGrain c ≤ c :=
  (Nat.pow_le_pow_right two_pos (Nat.sub_le _ _)).trans (Nat.log2_self_le (Nat.ne_of_gt hpos))

theorem readCount_pos (hpos : 0 < c) : 0 < readCount c := by
  have hgrain := singleGrain_le hpos
  have hnear := nearestMultiple_near (singleGrain_pos c) c
  rw [readCount]
  omega

/-- Of all counts of 32 bits, the multiples of their grain and the greatest one are read as they are. -/
theorem readCount_eq_self_iff (hlt : c < 2 ^ 32) :
    readCount c = c ↔ singleGrain c ∣ c ∨ c = 2 ^ 32 - 1 := by
  rw [← nearestMultiple_eq_self_iff (singleGrain_pos c), readCount]
  constructor
  · intro h
    omega
  · rintro (h | rfl)
    · omega
    · decide

theorem readCount_eq_self_of_le (hpos : 0 < c) (hle : c ≤ 2 ^ 24) : readCount c = c := by
  refine (readCount_eq_self_iff (by omega)).mpr (.inl ?_)
  rcases Nat.lt_or_eq_of_le hle with hlt | rfl
  · have hlog := (Nat.log2_lt (Nat.ne_of_gt hpos)).mpr hlt
    have hgrain : c.log2 - 23 = 0 := by omega
    rw [singleGrain, hgrain]
    exact one_dvd c
  · decide

end Reading

namespace Decimal

variable {n : Nat}

theorem toList_toString (n : Nat) : (toString n).toList = digitsOf n := by
  rw [Nat.toString_eq_repr, Nat.toList_repr, digitsOf]

theorem toNat_of_isDigit {c : Char} (h : c.isDigit) : 48 ≤ c.val.toNat ∧ c.val.toNat < 58 := by
  simp only [Char.isDigit, Bool.and_eq_true, decide_eq_true_eq, ge_iff_le,
    UInt32.le_iff_toNat_le] at h
  exact ⟨h.1, Nat.lt_succ_of_le h.2⟩

theorem toLower_of_isDigit {c : Char} (h : c.isDigit) : c.toLower = c := by
  have hdigit := toNat_of_isDigit h
  have hletter : 'A'.val.toNat = 65 := rfl
  rw [Char.toLower, dif_neg]
  simp only [ge_iff_le, UInt32.le_iff_toNat_le]
  omega

theorem isBlank_of_isDigit {c : Char} (h : c.isDigit) : Text.isBlank c = false := by
  have hdigit := toNat_of_isDigit h
  simp only [Text.isBlank, UInt32.le_iff_toNat_le, ← UInt32.toNat_inj, UInt32.reduceToNat,
    Bool.or_eq_false_iff, Bool.and_eq_false_imp, decide_eq_true_eq, decide_eq_false_iff_not,
    beq_eq_false_iff_ne, ne_eq]
  omega

theorem digitsOf_ne_cons {c : Char} (hc : c.isDigit = false) (rest : List Char) :
    digitsOf n ≠ c :: rest := by
  intro h
  have hdigit := isDigit_of_mem_digitsOf (h ▸ List.mem_cons_self : c ∈ digitsOf n)
  rw [hc] at hdigit
  cases hdigit

end Decimal

open Decimal

theorem Numeral.ofText?_digitsOf (n : Nat) :
    ofText? (digitsOf n) = some (.decimal ⟨false, n, 0⟩) := by
  have hsign : sign (digitsOf n) = (false, digitsOf n) := by
    rw [sign]
    · exact digitsOf_ne_cons (by decide)
    · exact digitsOf_ne_cons (by decide)
  have hlower : (digitsOf n).map Char.toLower = digitsOf n :=
    (List.map_congr_left fun c hc => toLower_of_isDigit (isDigit_of_mem_digitsOf hc)).trans
      (List.map_id _)
  have hspan : (digitsOf n ++ []).span Char.isDigit = (digitsOf n, []) :=
    Json.span_digits (fun c => isDigit_of_mem_digitsOf) (by simp)
  rw [List.append_nil] at hspan
  have hunsigned : unsignedDecimal? false (digitsOf n) = some ⟨false, n, 0⟩ := by
    rw [unsignedDecimal?, hspan]
    simp [fraction, powerOfTen?, digitsOf_ne_nil, ofParts]
  rw [ofText?, hsign]
  dsimp only
  rw [hlower, if_neg, if_neg, hunsigned]
  · rfl
  · exact digitsOf_ne_cons (by decide) _
  · rintro (h | h)
    · exact digitsOf_ne_cons (by decide) _ h
    · exact digitsOf_ne_cons (by decide) _ h

namespace Settings

/-- Whether the node sets a parameter to a whole number, or to its digits. -/
def Gives (s : Settings) (name : String) (c : Nat) : Prop :=
  s.node.data.get? name = some (.integer c) ∨ s.node.data.get? name = some (.string (toString c))

variable {s : Settings} {name : String} {c : Nat}

theorem Gives.number (h : s.Gives name c) (hlt : c < 2 ^ 32) :
    s.number name = narrow (nearestDouble c 0) := by
  have hvalue : (s.node.data.get? name).bind Json.number? = some (nearestDouble c 0) := by
    rcases h with h | h
    · have hfits : fits 64 (c : Int) := by
        simp only [fits, fitsUnsigned, Nat.pow_eq, Bool.or_eq_true, Bool.and_eq_true, decide_eq_true_eq]
        omega
      rw [h, Option.bind_some, Json.integer, dif_pos hfits, Json.number?, ← ofNat_eq_nearestDouble]
      rfl
    · have htrim : Text.trim (digitsOf c) = digitsOf c :=
        Text.trim_eq_self fun d hd => isBlank_of_isDigit (isDigit_of_mem_digitsOf hd)
      rw [h, Option.bind_some]
      change (Numeral.ofText? (Text.trim (toString c).toList)).map (·.toDouble) = _
      rw [toList_toString, htrim, Numeral.ofText?_digitsOf]
      rfl
  rw [Settings.number, hvalue]
  rfl

theorem Gives.toNat_count (h : s.Gives name c) (hpos : 0 < c) (hlt : c < 2 ^ 32) :
    (s.count name).toNat = readCount c := by
  have hlog : c.log2 ≤ 52 := by
    have hdigits := (Nat.log2_lt (Nat.ne_of_gt hpos)).mpr hlt
    omega
  rw [count, h.number hlt, countOf_narrow hpos hlog, readCount, UInt32.ofNatClamp]
  split
  · rename_i hsize
    rw [UInt32.toNat_ofNatLT]
    exact (min_eq_left (Nat.le_pred_of_lt hsize)).symm
  · rename_i hsize
    rw [UInt32.toNat_ofNatLT]
    exact (min_eq_right (Nat.le_of_not_lt fun h => hsize (by omega))).symm

end Settings

end BehaviorTree
