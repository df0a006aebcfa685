import BehaviorTree.Random
import Mathlib.Data.List.Perm.Basic
import Mathlib.Logic.Function.Iterate

/-!
# Shuffles

A shuffle draws positions and makes the exchanges that they say. So a drawn order is a permutation of
the numbers below its bound, whatever the generator draws.
-/

namespace BehaviorTree.Generator

theorem scaleBelow_eq_div (bound : Nat) (draw : UInt32) :
    scaleBelow bound draw = (draw.toUInt64 * .ofNat bound).toNat / UInt32.size := by
  rw [scaleBelow, UInt64.toNat_shiftRight, Nat.shiftRight_eq_div_pow]
  rfl

theorem mul_lt_size {bound : Nat} (hle : bound ≤ UInt32.size) (draw : UInt32) :
    draw.toNat * bound < UInt64.size :=
  calc draw.toNat * bound
      ≤ draw.toNat * UInt32.size := Nat.mul_le_mul_left _ hle
    _ < UInt32.size * UInt32.size := Nat.mul_lt_mul_of_pos_right draw.toNat_lt_size (by decide)
    _ = UInt64.size := by decide

theorem scaleBelow_of_le {bound : Nat} (hle : bound ≤ UInt32.size) (draw : UInt32) :
    scaleBelow bound draw = draw.toNat * bound / UInt32.size := by
  have hbound : bound < UInt64.size := Nat.lt_of_le_of_lt hle (by decide)
  rw [scaleBelow_eq_div, UInt64.toNat_mul, UInt32.toNat_toUInt64,
    UInt64.toNat_ofNat_of_lt' hbound, Nat.mod_eq_of_lt (mul_lt_size hle draw)]

/-- The product may wrap, but then its upper half is below the bound anyway. -/
theorem scaleBelow_lt {bound : Nat} (hbound : 0 < bound) (draw : UInt32) :
    scaleBelow bound draw < bound := by
  rcases Nat.lt_or_ge UInt32.size bound with hgt | hle
  · calc scaleBelow bound draw
        < UInt32.size := by
          rw [scaleBelow_eq_div, Nat.div_lt_iff_lt_mul (by decide)]
          exact UInt64.toNat_lt_size _
      _ < bound := hgt
  · rw [scaleBelow_of_le hle, Nat.div_lt_iff_lt_mul (by decide), Nat.mul_comm bound]
    exact Nat.mul_lt_mul_of_pos_right draw.toNat_lt_size hbound

theorem nextBelow_lt {bound : Nat} (h : 0 < bound) (g : Generator) :
    (nextBelow bound g).1 < bound := by
  rw [nextBelow, if_neg (Nat.ne_of_gt h)]
  exact scaleBelow_lt h _

theorem generator_nextBelow {bound : Nat} (h : 0 < bound) (g : Generator) :
    (nextBelow bound g).2 = g.advance := by
  rw [nextBelow, if_neg (Nat.ne_of_gt h)]
  rfl

theorem swap_perm {α : Type} (order : List α) (i j : Nat) : (swap order i j).Perm order := by
  rw [swap]
  split
  · rename_i a b ha hb
    obtain ⟨hi, rfl⟩ := List.getElem?_eq_some_iff.mp ha
    obtain ⟨hj, rfl⟩ := List.getElem?_eq_some_iff.mp hb
    exact List.set_set_perm hi hj
  · exact .refl order

/-- Exchanges the places `i`, `i - 1`, down to 1 each with the next of some positions. -/
def exchange : Nat → List Nat → List Nat → List Nat
  | i + 1, order, j :: rest => exchange i (swap order (i + 1) j) rest
  | _, order, _ => order

/-- The positions that a generator draws for the places `i`, `i - 1`, down to 1. -/
def positions : Nat → Generator → List Nat
  | 0, _ => []
  | i + 1, g => (nextBelow (i + 2) g).1 :: positions i (nextBelow (i + 2) g).2

theorem exchange_perm (i : Nat) (order draws : List Nat) :
    (exchange i order draws).Perm order := by
  induction i generalizing order draws with
  | zero => exact .refl order
  | succ i ih =>
    cases draws with
    | nil => exact .refl order
    | cons j rest => exact (ih _ rest).trans (swap_perm order (i + 1) j)

theorem shuffleFrom_succ (i : Nat) (order : List Nat) (g : Generator) :
    shuffleFrom (i + 1) order g =
      shuffleFrom i (swap order (i + 1) (nextBelow (i + 2) g).1) (nextBelow (i + 2) g).2 := by
  rw [shuffleFrom.eq_def]

/-- A shuffle makes the exchanges that it draws, with a step of the generator for each. -/
theorem shuffleFrom_eq (i : Nat) (order : List Nat) (g : Generator) :
    shuffleFrom i order g = (exchange i order (positions i g), advance^[i] g) := by
  induction i generalizing order g with
  | zero => rfl
  | succ i ih =>
    rw [shuffleFrom_succ, ih, positions, exchange, generator_nextBelow (by omega),
      Function.iterate_succ_apply]

theorem shuffle_eq (n : Nat) (g : Generator) :
    g.shuffle n =
      (exchange (n - 1) (List.range n) (positions (n - 1) g), advance^[n - 1] g) :=
  shuffleFrom_eq (n - 1) (List.range n) g

theorem shuffle_perm (n : Nat) (g : Generator) : (g.shuffle n).1.Perm (List.range n) := by
  rw [shuffle_eq]
  exact exchange_perm (n - 1) (List.range n) _

theorem length_shuffle (n : Nat) (g : Generator) : (g.shuffle n).1.length = n := by
  rw [(shuffle_perm n g).length_eq, List.length_range]

end BehaviorTree.Generator
