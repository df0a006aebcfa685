import Mathlib.Data.Fintype.Card
import Mathlib.Data.List.Chain
import Mathlib.Logic.Relation

/-!
# Walks of a given length

In a finite graph a walk with as many steps as there are places comes by a cycle.
-/

namespace BehaviorTree

open Relation

variable {α : Type} {r : α → α → Prop}

/-- A walk of so many steps. -/
inductive Walk (r : α → α → Prop) : Nat → α → α → Prop where
  | here (a : α) : Walk r 0 a a
  | step {k : Nat} {a b c : α} (first : r a b) (rest : Walk r k b c) : Walk r (k + 1) a c

namespace Walk

private theorem places {k : Nat} {a b : α} (h : Walk r k a b) :
    ∃ l : List α, l.length = k ∧ (a :: l).IsChain r := by
  induction h with
  | here a => exact ⟨[], rfl, List.isChain_singleton a⟩
  | @step k a b c first _ ih =>
    obtain ⟨l, hlen, hchain⟩ := ih
    exact ⟨b :: l, by rw [List.length_cons, hlen], List.isChain_cons_cons.mpr ⟨first, hchain⟩⟩

theorem snoc {k : Nat} {a b c : α} (h : Walk r k a b) (last : r b c) : Walk r (k + 1) a c := by
  induction h with
  | here a => exact .step last (.here c)
  | step first _ ih => exact .step first (ih last)

theorem reflTransGen {k : Nat} {a b : α} (h : Walk r k a b) : ReflTransGen r a b := by
  induction h with
  | here a => exact .refl
  | step first _ ih => exact .head first ih

/-- Where no cycle can be reached, a walk passes every place at most once. -/
theorem length_lt_card [Fintype α] {k : Nat} {a b : α} (h : Walk r k a b)
    (hfree : ∀ c, ReflTransGen r a c → ¬ TransGen r c c) : k < Fintype.card α := by
  obtain ⟨l, hlen, hchain⟩ := h.places
  have hpair : (a :: l).Pairwise (TransGen r) :=
    List.isChain_iff_pairwise.mp (hchain.imp fun _ _ => TransGen.single)
  have hreach : ∀ c ∈ a :: l, ReflTransGen r a c := by
    intro c hc
    rcases List.mem_cons.mp hc with rfl | hc
    · exact .refl
    · exact ((List.pairwise_cons.mp hpair).1 c hc).to_reflTransGen
  have hnodup : (a :: l).Nodup := by
    refine hpair.imp_of_mem ?_
    rintro c d hc - hcd rfl
    exact hfree c (hreach c hc) hcd
  have hle := hnodup.length_le_card
  rw [List.length_cons, hlen] at hle
  omega

end Walk

end BehaviorTree
