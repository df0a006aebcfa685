import BehaviorTree.Proofs.Random.Shuffle
import Mathlib.Algebra.Order.Floor.Div
import Mathlib.Data.Set.Card
import Mathlib.Order.Interval.Finset.Nat

/-!
# The balance of scaled draws

A 32-bit draw is scaled to a number below a bound by a product of 64-bit words and a shift. The draws
for one number follow one another, and no two numbers differ in how many they have by more than one.
-/

namespace BehaviorTree.Generator

def drawsFor (bound v : Nat) : Set UInt32 := {draw | scaleBelow bound draw = v}

/-- The least draw that is scaled to a number or a greater one. -/
def leastDraw (bound v : Nat) : Nat := (v * UInt32.size) ⌈/⌉ bound

variable {bound : Nat}

theorem leastDraw_le_iff (hpos : 0 < bound) (v draw : Nat) :
    leastDraw bound v ≤ draw ↔ v ≤ draw * bound / UInt32.size := by
  rw [leastDraw, ceilDiv_le_iff_le_mul hpos, Nat.le_div_iff_mul_le (by decide), Nat.mul_comm bound]

theorem mem_Ico_leastDraw_iff (hpos : 0 < bound) (v draw : Nat) :
    draw ∈ Finset.Ico (leastDraw bound v) (leastDraw bound (v + 1)) ↔
      draw * bound / UInt32.size = v := by
  rw [Finset.mem_Ico, leastDraw_le_iff hpos, ← Nat.not_le, leastDraw_le_iff hpos]
  omega

theorem scaleBelow_mono (hle : bound ≤ UInt32.size) {draw draw' : UInt32} (h : draw ≤ draw') :
    scaleBelow bound draw ≤ scaleBelow bound draw' := by
  rw [scaleBelow_of_le hle, scaleBelow_of_le hle]
  exact Nat.div_le_div_right (Nat.mul_le_mul_right bound (UInt32.le_iff_toNat_le.mp h))

/-- There are as many draws for a number as lie between the least ones for it and for the next. -/
theorem ncard_drawsFor (hpos : 0 < bound) (hle : bound ≤ UInt32.size) {v : Nat} (hv : v < bound) :
    (drawsFor bound v).ncard = leastDraw bound (v + 1) - leastDraw bound v := by
  have hlast : leastDraw bound (v + 1) ≤ UInt32.size := by
    rw [leastDraw, ceilDiv_le_iff_le_mul hpos]
    exact Nat.mul_le_mul_right _ hv
  have himage : UInt32.toNat '' drawsFor bound v =
      Finset.Ico (leastDraw bound v) (leastDraw bound (v + 1)) := by
    ext draw
    rw [Finset.mem_coe, mem_Ico_leastDraw_iff hpos]
    constructor
    · rintro ⟨word, hword, rfl⟩
      exact (scaleBelow_of_le hle word).symm.trans hword
    · intro hdraw
      have hmem := Finset.mem_Ico.mp ((mem_Ico_leastDraw_iff hpos v draw).mpr hdraw)
      have hword : (UInt32.ofNat draw).toNat = draw :=
        UInt32.toNat_ofNat_of_lt' (Nat.lt_of_lt_of_le hmem.2 hlast)
      refine ⟨.ofNat draw, ?_, hword⟩
      rw [drawsFor, Set.mem_ofPred_eq, scaleBelow_of_le hle, hword, hdraw]
  have hinjective : Function.Injective UInt32.toNat := fun _ _ => UInt32.toNat_inj.mp
  rw [← Set.ncard_image_of_injective _ hinjective, himage, Set.ncard_coe_finset, Nat.card_Ico]

/-- Consecutive parts of a whole that is cut evenly differ by a part, rounded down or up. -/
private theorem ceilDiv_succ (hpos : 0 < bound) (v whole : Nat) :
    (v * whole) ⌈/⌉ bound + whole / bound ≤ ((v + 1) * whole) ⌈/⌉ bound ∧
      ((v + 1) * whole) ⌈/⌉ bound ≤ (v * whole) ⌈/⌉ bound + whole ⌈/⌉ bound := by
  have hnext : (v + 1) * whole ≤ bound * (((v + 1) * whole) ⌈/⌉ bound) := le_smul_ceilDiv hpos
  have hthis : v * whole ≤ bound * ((v * whole) ⌈/⌉ bound) := le_smul_ceilDiv hpos
  have hup : whole ≤ bound * (whole ⌈/⌉ bound) := le_smul_ceilDiv hpos
  have hdown : bound * (whole / bound) ≤ whole := Nat.mul_div_le _ _
  rw [Nat.add_mul, Nat.one_mul] at hnext ⊢
  constructor
  · have hle : whole / bound ≤ (v * whole + whole) ⌈/⌉ bound :=
      Nat.le_of_mul_le_mul_left (by omega) hpos
    have hfirst : (v * whole) ⌈/⌉ bound ≤ (v * whole + whole) ⌈/⌉ bound - whole / bound := by
      rw [ceilDiv_le_iff_le_mul hpos, Nat.mul_sub]
      omega
    omega
  · rw [ceilDiv_le_iff_le_mul hpos, Nat.mul_add]
    omega

theorem ncard_drawsFor_eq (hpos : 0 < bound) (hle : bound ≤ UInt32.size) {v : Nat} (hv : v < bound) :
    (drawsFor bound v).ncard = UInt32.size / bound ∨
      (drawsFor bound v).ncard = UInt32.size ⌈/⌉ bound := by
  rw [ncard_drawsFor hpos hle hv, leastDraw, leastDraw]
  generalize UInt32.size = whole
  obtain ⟨hleast, hmost⟩ := ceilDiv_succ hpos v whole
  have hround : whole ⌈/⌉ bound ≤ whole / bound + 1 := by
    rw [ceilDiv_le_iff_le_mul hpos]
    exact (Nat.lt_mul_div_succ _ hpos).le
  omega

/-- A number drawn below a bound of at most 32 bits is below it, and is scaled from its draw without
overflow. Each number has one part of all draws, rounded down or up, and greater draws are not scaled
to lesser numbers. -/
theorem nextBelow_balanced {bound : Nat} (hpos : 1 ≤ bound) (hle : bound ≤ UInt32.size) :
    (∀ g : Generator, (nextBelow bound g).1 = scaleBelow bound g.nextHalf.1 ∧
      (nextBelow bound g).1 < bound) ∧
    (∀ draw : UInt32, draw.toNat * bound < UInt64.size ∧
      scaleBelow bound draw = draw.toNat * bound / UInt32.size) ∧
    (∀ v < bound, (drawsFor bound v).ncard = UInt32.size / bound ∨
      (drawsFor bound v).ncard = UInt32.size ⌈/⌉ bound) ∧
    ∀ draw draw' : UInt32, draw ≤ draw' → scaleBelow bound draw ≤ scaleBelow bound draw' := by
  refine ⟨fun g => ⟨?_, nextBelow_lt hpos g⟩,
    fun draw => ⟨mul_lt_size hle draw, scaleBelow_of_le hle draw⟩,
    fun _ hv => ncard_drawsFor_eq hpos hle hv, fun _ _ h => scaleBelow_mono hle h⟩
  rw [nextBelow, if_neg (Nat.ne_of_gt hpos)]

theorem nextBelow_balanced_largest :
    1 ≤ UInt32.size ∧ (∀ g : Generator, (nextBelow UInt32.size g).1 < UInt32.size) ∧
      (∀ draw : UInt32, draw.toNat * UInt32.size < UInt64.size) ∧
        ∀ v < UInt32.size, (drawsFor UInt32.size v).ncard = 1 := by
  have hpos : 1 ≤ UInt32.size := by decide
  obtain ⟨hdrawn, hfits, hparts, -⟩ := nextBelow_balanced hpos le_rfl
  have hup : UInt32.size ⌈/⌉ UInt32.size = 1 := by decide
  refine ⟨hpos, fun g => (hdrawn g).2, fun draw => (hfits draw).1, fun v hv => ?_⟩
  have hcount := hparts v hv
  rwa [hup, Nat.div_self hpos, or_self] at hcount

end BehaviorTree.Generator
