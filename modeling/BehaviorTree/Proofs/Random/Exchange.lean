import BehaviorTree.Proofs.Random.Shuffle
import Mathlib.Data.Set.Function

/-!
# The draws of a shuffle

A shuffle is decided by the positions that it draws. Every order of the numbers below its bound comes
of exactly one choice of these, so it favours no order as long as the draws favour no position.
-/

namespace BehaviorTree.Generator

/-- Positions for the places `i`, `i - 1`, down to 1, each not above its place. -/
inductive Draws : Nat → List Nat → Prop where
  | none : Draws 0 []
  | next {i j : Nat} {rest : List Nat} (hle : j ≤ i + 1) (hrest : Draws i rest) :
      Draws (i + 1) (j :: rest)

theorem draws_positions (i : Nat) (g : Generator) : Draws i (positions i g) := by
  induction i generalizing g with
  | zero => exact .none
  | succ i ih => exact .next (Nat.lt_succ_iff.mp (nextBelow_lt (by omega) g)) (ih _)

theorem getElem?_swap {α : Type} {order : List α} {i j : Nat} (hi : i < order.length)
    (hj : j < order.length) (k : Nat) :
    (swap order i j)[k]? = if k = j then order[i]? else if k = i then order[j]? else order[k]? := by
  have hswap : swap order i j = (order.set i order[j]).set j order[i] := by
    rw [swap, List.getElem?_eq_getElem hi, List.getElem?_eq_getElem hj]
  rw [hswap, List.getElem?_set, List.getElem?_set, List.length_set, List.getElem?_eq_getElem hi,
    List.getElem?_eq_getElem hj]
  simp only [eq_comm (a := k), if_pos hi, if_pos hj]

theorem length_swap {α : Type} (order : List α) (i j : Nat) :
    (swap order i j).length = order.length := (swap_perm order i j).length_eq

variable {i : Nat} {order draws draws' target : List Nat}

theorem getElem?_exchange (h : Draws i draws) (hi : i ≤ order.length - 1) {k : Nat} (hk : i < k) :
    (exchange i order draws)[k]? = order[k]? := by
  induction h generalizing order with
  | none => rfl
  | @next i j rest hle _ ih =>
    rw [exchange, ih (by rw [length_swap]; omega) (by omega),
      getElem?_swap (by omega) (by omega), if_neg (by omega), if_neg (by omega)]

/-- The first exchange decides what stands in its place at the end. -/
theorem getElem?_exchange_first {j : Nat} (hle : j ≤ i + 1) (h : Draws i draws)
    (hi : i + 1 ≤ order.length - 1) : (exchange (i + 1) order (j :: draws))[i + 1]? = order[j]? := by
  rw [exchange, getElem?_exchange h (by rw [length_swap]; omega) (by omega),
    getElem?_swap (by omega) (by omega)]
  split
  · rename_i heq
    rw [heq]
  · exact if_pos rfl

theorem exchange_injective (hnodup : order.Nodup) (hi : i ≤ order.length - 1) (h : Draws i draws)
    (h' : Draws i draws') (heq : exchange i order draws = exchange i order draws') :
    draws = draws' := by
  induction h generalizing order draws' with
  | none =>
    cases h'
    rfl
  | @next i j rest hle hrest ih =>
    cases h' with
    | @next _ j' rest' hle' hrest' =>
      have hfirst : order[j]? = order[j']? := by
        rw [← getElem?_exchange_first hle hrest hi, heq, getElem?_exchange_first hle' hrest' hi]
      obtain rfl : j = j' := (List.getElem?_inj (show j < order.length by omega) hnodup).mp hfirst
      have hswapped := (swap_perm order (i + 1) j).nodup_iff.mpr hnodup
      rw [ih hswapped (by rw [length_swap]; omega) hrest' heq]

private theorem eq_of_perm_of_tail (hnodup : order.Nodup) (hperm : target.Perm order)
    (hsame : ∀ k, 0 < k → target[k]? = order[k]?) : target = order := by
  cases order with
  | nil => exact hperm.eq_nil
  | cons a rest =>
    cases target with
    | nil => exact absurd hperm.symm.eq_nil (List.cons_ne_nil a rest)
    | cons b rest' =>
      obtain rfl : rest' = rest := List.ext_getElem? fun k => hsame (k + 1) (by omega)
      have hmem : a ∈ b :: rest' := hperm.mem_iff.mpr List.mem_cons_self
      rw [(List.mem_cons.mp hmem).resolve_right (List.nodup_cons.mp hnodup).1]

/-- Every order is arrived at that has the same elements, above the first place where they stood. -/
theorem exists_exchange (hnodup : order.Nodup) (hi : i ≤ order.length - 1)
    (hperm : target.Perm order) (hsame : ∀ k, i < k → target[k]? = order[k]?) :
    ∃ draws, Draws i draws ∧ exchange i order draws = target := by
  induction i generalizing order with
  | zero => exact ⟨[], .none, (eq_of_perm_of_tail hnodup hperm hsame).symm⟩
  | succ i ih =>
    have hlength := hperm.length_eq
    have hlt : i + 1 < target.length := by omega
    obtain ⟨j, hj, hget⟩ := List.getElem_of_mem (hperm.mem_iff.mp (List.getElem_mem hlt))
    have hget? : order[j]? = target[i + 1]? := by
      rw [List.getElem?_eq_getElem hj, hget, List.getElem?_eq_getElem hlt]
    have hle : j ≤ i + 1 := by
      by_contra habove
      have hplaces := (hsame j (by omega)).trans hget?
      have hback := (List.getElem?_inj (show j < target.length by omega)
        (hperm.nodup_iff.mpr hnodup)).mp hplaces
      omega
    have hswapped := swap_perm order (i + 1) j
    have hsame' : ∀ k, i < k → target[k]? = (swap order (i + 1) j)[k]? := by
      intro k hk
      rw [getElem?_swap (by omega) hj]
      split
      · rename_i heq
        obtain rfl : i + 1 = j := by omega
        rw [heq, hget?]
      · split
        · rename_i heq
          rw [heq, hget?]
        · exact hsame k (by omega)
    obtain ⟨rest, hrest, hdone⟩ := ih (hswapped.nodup_iff.mpr hnodup)
      (by rw [length_swap]; omega) (hperm.trans hswapped.symm) hsame'
    exact ⟨j :: rest, .next hle hrest, hdone⟩

/-- The positions that a shuffle may draw stand one to one for the orders of the numbers below its
bound, whatever a generator draws. -/
theorem shuffle_bijective (n : Nat) :
    Set.BijOn (exchange (n - 1) (List.range n)) {draws | Draws (n - 1) draws}
        {order | order.Perm (List.range n)} ∧
      ∀ g : Generator, Draws (n - 1) (positions (n - 1) g) ∧
        (g.shuffle n).1 = exchange (n - 1) (List.range n) (positions (n - 1) g) ∧
          (g.shuffle n).1.Perm (List.range n) := by
  have hi : n - 1 ≤ (List.range n).length - 1 := by rw [List.length_range]
  refine ⟨⟨?_, ?_, ?_⟩, fun g => ⟨draws_positions (n - 1) g, ?_, shuffle_perm n g⟩⟩
  · intro draws _
    exact exchange_perm (n - 1) (List.range n) draws
  · intro draws hdraws draws' hdraws' heq
    exact exchange_injective List.nodup_range hi hdraws hdraws' heq
  · intro order hperm
    have hsame : ∀ k, n - 1 < k → order[k]? = (List.range n)[k]? := by
      intro k hk
      rw [List.getElem?_eq_none, List.getElem?_eq_none]
      · rw [List.length_range]
        omega
      · rw [hperm.length_eq, List.length_range]
        omega
    exact exists_exchange List.nodup_range hi hperm hsame
  · rw [shuffle_eq]

/-- Three numbers have six choices of positions, each with an order of its own. -/
example : [[0, 0], [0, 1], [1, 0], [1, 1], [2, 0], [2, 1]].map (exchange 2 [0, 1, 2]) =
    [[1, 2, 0], [2, 1, 0], [2, 0, 1], [0, 2, 1], [1, 0, 2], [0, 1, 2]] := by
  decide

end BehaviorTree.Generator
