import BehaviorTree.Json.Parser
import BehaviorTree.Proofs.Json.Kept

/-!
# How deep documents are nested

What is read from a text is nested no deeper than texts may be, and what a free value keeps of a
document is nested no deeper than that.
-/

namespace BehaviorTree

namespace Document

theorem depthItems_le_iff {items : List Document} {n : Nat} :
    depthItems items ≤ n ↔ ∀ d ∈ items, d.depth ≤ n := by
  induction items with
  | nil => simp [depthItems]
  | cons d rest ih => simp [depthItems, ih]

theorem depthMembers_le_iff {members : List (String × Document)} {n : Nat} :
    depthMembers members ≤ n ↔ ∀ e ∈ members, e.2.depth ≤ n := by
  induction members with
  | nil => simp [depthMembers]
  | cons e rest ih => simp [depthMembers, ih]

end Document

namespace Json

open Document

variable {codec : NumberCodec}

theorem depth_nested {room : Nat} {d : Document} (h : room ≠ 0 → d.depth ≤ room) :
    (nested room d).depth ≤ room := by
  rw [nested]
  split
  · exact Nat.zero_le room
  · rename_i hroom
    exact h hroom

theorem depth_ofDecimal (d : Decimal) : (ofDecimal codec d).depth = 0 := by
  rw [ofDecimal]
  split <;> rfl

theorem depth_ofDigits (negative : Bool) (digits : List Char) :
    (ofDigits codec negative digits).depth = 0 := by
  rw [ofDigits]
  split <;> split <;> first | rfl | exact depth_ofDecimal _

theorem depth_number {text rest : List Char} {d : Document} (h : number codec text = some (d, rest)) :
    d.depth = 0 := by
  have hunsigned : ∀ negative text, unsignedNumber codec negative text = some (d, rest) → d.depth = 0 := by
    intro negative text h
    rw [unsignedNumber] at h
    dsimp only at h
    split at h
    · cases h
    · simp only [Option.bind_eq_bind, Option.bind_eq_some_iff] at h
      obtain ⟨fraction, -, power, -, h⟩ := h
      split at h <;> cases h
      · exact depth_ofDigits _ _
      · exact depth_ofDecimal _
  rw [number.eq_def] at h
  split at h <;> exact hunsigned _ _ h

mutual

theorem depth_value : ∀ {fuel room : Nat} {text rest : List Char} {d : Document},
    value codec fuel room text = some (d, rest) → d.depth ≤ room
  | 0, _, _, _, _, h => by cases h
  | fuel + 1, room, text, rest, d, h => by
    rw [value.eq_def] at h
    dsimp only at h
    split at h
    · split at h
      · cases h
        apply depth_nested
        intro hroom
        simp only [Document.depth, depthMembers]
        omega
      · simp only [Option.map_eq_some_iff, Prod.mk.injEq] at h
        obtain ⟨⟨found, rest⟩, hfound, rfl, rfl⟩ := h
        apply depth_nested
        intro hroom
        cases found with
        | none => exact Nat.zero_le room
        | some found =>
          have hmembers := depth_members hfound
          simp only [Option.elim_some, Document.depth]
          omega
    · split at h
      · cases h
        apply depth_nested
        intro hroom
        simp only [Document.depth, depthItems]
        omega
      · simp only [Option.map_eq_some_iff, Prod.mk.injEq] at h
        obtain ⟨⟨found, rest⟩, hfound, rfl, rfl⟩ := h
        apply depth_nested
        intro hroom
        have hitems := depth_items hfound
        simp only [Document.depth]
        omega
    · simp only [Option.map_eq_some_iff, Prod.mk.injEq] at h
      obtain ⟨⟨s, rest⟩, -, rfl, rfl⟩ := h
      cases s <;> exact Nat.zero_le room
    · cases h
      exact Nat.zero_le room
    · cases h
      exact Nat.zero_le room
    · cases h
      exact Nat.zero_le room
    · rw [depth_number h]
      exact Nat.zero_le room

theorem depth_items : ∀ {fuel room : Nat} {text rest : List Char} {found : List Document},
    items codec fuel room text = some (found, rest) → depthItems found ≤ room
  | 0, _, _, _, _, h => by cases h
  | fuel + 1, room, text, rest, found, h => by
    rw [items] at h
    split at h
    · cases h
    · rename_i d text hvalue
      have hd := depth_value hvalue
      split at h
      · cases h
        simpa [depthItems] using hd
      · simp only [Option.map_eq_some_iff, Prod.mk.injEq] at h
        obtain ⟨⟨more, rest⟩, hmore, rfl, rfl⟩ := h
        exact max_le hd (depth_items hmore)
      · cases h

theorem depth_members : ∀ {fuel room : Nat} {text rest : List Char}
    {found : List (String × Document)},
    members codec fuel room text = some (some found, rest) → depthMembers found ≤ room
  | 0, _, _, _, _, h => by cases h
  | fuel + 1, room, text, rest, found, h => by
    rw [members] at h
    split at h
    · split at h
      · cases h
      · split at h
        · split at h
          · cases h
          · rename_i d _ hvalue
            have hd := depth_value hvalue
            split at h
            · simp only [Option.some.injEq, Prod.mk.injEq, Option.map_eq_some_iff] at h
              obtain ⟨⟨name, -, rfl⟩, rfl⟩ := h
              simpa [depthMembers] using hd
            · simp only [Option.map_eq_some_iff, Prod.mk.injEq, Option.bind_eq_some_iff] at h
              obtain ⟨⟨more, rest⟩, hmore, ⟨name, -, more, rfl, rfl⟩, rfl⟩ := h
              exact max_le hd (depth_members hmore)
            · cases h
        · cases h
    · cases h

end

end Json

/-- What is read from a text is nested no deeper than texts may be. -/
theorem Document.depth_ofText? {codec : NumberCodec} {text : String} {d : Document}
    (h : ofText? codec text = some d) : d.depth ≤ Json.maxDepth := by
  rw [ofText?, Json.parse?] at h
  split at h
  · rename_i d' rest hvalue
    split at h
    · cases h
      exact Json.depth_value hvalue
    · cases h
  · cases h

namespace Json

theorem depth_double (x : Float) : (double x).document.depth = 0 := by
  rw [double]
  split <;> rfl

theorem depth_ofNumber (n : Number) : (ofNumber n).document.depth = 0 := by
  cases n with
  | integer n =>
    rw [ofNumber, integer]
    split
    · rfl
    · exact depth_double _
  | double x => exact depth_double x
  | single x => exact depth_double (widen x)

end Json

namespace Document

mutual

/-- A free value is nested no deeper than the document that it is made of. -/
theorem depth_kept : ∀ d : Document, d.kept.depth ≤ d.depth
  | .null | .bool _ | .string _ | .unreadable => Nat.le_refl 0
  | .number n => Nat.le_of_eq (Json.depth_ofNumber n)
  | .array items => by
    rw [kept_array]
    exact Nat.add_le_add_left (depthItems_kept items) 1
  | .object members => by
    rw [kept_object, keptMembers]
    apply Nat.add_le_add_left
    rw [depthMembers_le_iff]
    intro e he
    obtain ⟨entry, hentry, rfl⟩ := List.mem_map.mp he
    exact (depth_ofMembers members hentry).resolve_left (by simp [Dict.entries_empty])

theorem depthItems_kept : ∀ items : List Document, depthItems (items.map kept) ≤ depthItems items
  | [] => Nat.le_refl 0
  | d :: rest => max_le_max (depth_kept d) (depthItems_kept rest)

theorem depth_ofMembers : ∀ {before : Dict Json} (members : List (String × Document))
    {e : String × Json}, e ∈ (Json.ofMembers before members).entries →
      e ∈ before.entries ∨ e.2.document.depth ≤ depthMembers members
  | _, [], _, he => .inl he
  | before, (name, d) :: rest, e, he => by
    rw [Json.ofMembers] at he
    rw [depthMembers]
    rcases depth_ofMembers rest he with he | he
    · rcases Dict.mem_place he with rfl | he
      · exact .inr (le_max_of_le_left (depth_kept d))
      · exact .inl he
    · exact .inr (le_max_of_le_right he)

end

end Document

end BehaviorTree
