import BehaviorTree.Text.Blank
import Mathlib.Data.List.DropRight

/-!
# Parts of texts

Where two texts meet, the last part of the one and the first part of the other become one part, and the
other parts stay what they are. So what is put in next to a separator, or at an end of a text, is put in
at an end of a part.
-/

namespace BehaviorTree.Text

/-- Whether the place between two texts is at an end of the whole, or next to one of some separators. -/
def Edge (separators a b : List Char) : Prop :=
  (∀ c ∈ a.getLast?, c ∈ separators) ∨ ∀ c ∈ b.head?, c ∈ separators

section Splitting

variable {separator : Char}

theorem splitAt_ne_nil (separator : Char) (cs : List Char) : splitAt separator cs ≠ [] := by
  rw [splitAt.eq_def]
  split
  · simp
  · split
    · simp
    · split <;> simp

theorem splitAt_cons_self (separator : Char) (cs : List Char) :
    splitAt separator (separator :: cs) = [] :: splitAt separator cs := by
  rw [splitAt, if_pos rfl]

theorem splitAt_cons_of_ne {c : Char} (h : c ≠ separator) (cs : List Char) :
    splitAt separator (c :: cs) = (splitAt separator cs).modifyHead (c :: ·) := by
  rw [splitAt, if_neg h]
  split
  · rename_i part parts hsplit
    rw [hsplit, List.modifyHead_cons]
  · rename_i hnone
    exact absurd hnone (splitAt_ne_nil separator cs)

theorem eq_of_splitAt_eq_singleton {cs part : List Char} (h : splitAt separator cs = [part]) :
    part = cs := by
  induction cs generalizing part with
  | nil =>
    cases h
    rfl
  | cons c cs ih =>
    obtain ⟨first, others, hsplit⟩ := List.exists_cons_of_ne_nil (splitAt_ne_nil separator cs)
    by_cases hc : c = separator
    · rw [hc, splitAt_cons_self, hsplit] at h
      cases h
    · rw [splitAt_cons_of_ne hc, hsplit, List.modifyHead_cons] at h
      cases h
      rw [ih hsplit]

theorem exists_splitAt (separator : Char) (cs : List Char) : ∃ first others,
    splitAt separator cs = first :: others ∧ first <+: cs ∧ separator ∉ first := by
  induction cs with
  | nil => exact ⟨[], [], rfl, List.nil_prefix, List.not_mem_nil⟩
  | cons c cs ih =>
    obtain ⟨first, others, hsplit, hfirst, hnot⟩ := ih
    by_cases hc : c = separator
    · subst hc
      exact ⟨[], _, splitAt_cons_self c cs, List.nil_prefix, List.not_mem_nil⟩
    · refine ⟨c :: first, others, ?_, List.cons_prefix_cons.mpr ⟨rfl, hfirst⟩, ?_⟩
      · rw [splitAt_cons_of_ne hc, hsplit, List.modifyHead_cons]
      · simp [hnot, Ne.symm hc]

theorem exists_splitAt_append (separator : Char) (a : List Char) : ∃ before last,
    (∀ b, splitAt separator (a ++ b) = before ++ (splitAt separator b).modifyHead (last ++ ·)) ∧
      last <:+ a ∧ separator ∉ last := by
  induction a with
  | nil =>
    refine ⟨[], [], fun b => ?_, List.nil_suffix, List.not_mem_nil⟩
    obtain ⟨first, others, hsplit, -⟩ := exists_splitAt separator b
    rw [List.nil_append, hsplit]
    rfl
  | cons c a ih =>
    obtain ⟨before, last, happend, hlast, hnot⟩ := ih
    by_cases hc : c = separator
    · subst hc
      refine ⟨[] :: before, last, fun b => ?_, hlast.trans (List.suffix_cons c a), hnot⟩
      rw [List.cons_append, splitAt_cons_self, happend, List.cons_append]
    · cases before with
      | nil =>
        have hall : last = a := by
          have hsplit := happend []
          rw [List.append_nil] at hsplit
          exact (List.append_nil last).symm.trans (eq_of_splitAt_eq_singleton hsplit)
        refine ⟨[], c :: last, fun b => ?_, ?_, ?_⟩
        · rw [List.cons_append, splitAt_cons_of_ne hc, happend, List.nil_append, List.nil_append]
          exact List.modifyHead_modifyHead
        · exact hall ▸ List.suffix_refl (c :: last)
        · simp [hnot, Ne.symm hc]
      | cons first before =>
        refine ⟨(c :: first) :: before, last, fun b => ?_, hlast.trans (List.suffix_cons c a), hnot⟩
        rw [List.cons_append, splitAt_cons_of_ne hc, happend]
        rfl

theorem splitAt_append_cons (separator : Char) (a b : List Char) :
    splitAt separator (a ++ separator :: b) = splitAt separator a ++ splitAt separator b := by
  obtain ⟨before, last, happend, -⟩ := exists_splitAt_append separator a
  have ha := happend []
  rw [List.append_nil] at ha
  rw [happend, ha, splitAt_cons_self, List.modifyHead_cons, List.append_assoc]
  rfl

/-- What a character comes to that is put in at a place of a text: a separator cuts a part in two there,
and another one is put in at that place of the part. -/
theorem splitAt_insert (separator : Char) (a b : List Char) : ∃ before x y after,
    splitAt separator (a ++ b) = before ++ (x ++ y) :: after ∧
    splitAt separator (a ++ separator :: b) = before ++ x :: y :: after ∧
    (∀ c, c ≠ separator → splitAt separator (a ++ c :: b) = before ++ (x ++ c :: y) :: after) ∧
    ∀ separators, Edge (separator :: separators) a b → Edge separators x y := by
  obtain ⟨before, x, happend, ⟨front, hx⟩, hx'⟩ := exists_splitAt_append separator a
  obtain ⟨y, after, hsplit, ⟨back, hy⟩, hy'⟩ := exists_splitAt separator b
  refine ⟨before, x, y, after, ?_, ?_, fun c hc => ?_, fun separators h => ?_⟩
  · rw [happend, hsplit, List.modifyHead_cons]
  · rw [happend, splitAt_cons_self, hsplit, List.modifyHead_cons, List.append_nil]
  · rw [happend, splitAt_cons_of_ne hc, hsplit, List.modifyHead_cons, List.modifyHead_cons]
  rcases h with h | h
  · refine .inl fun c hc => ?_
    have hmem := h c (by simp [← hx, List.getLast?_append, Option.mem_def.mp hc])
    have hne : c ≠ separator := by
      rintro rfl
      exact hx' (List.mem_of_mem_getLast? hc)
    exact List.mem_of_ne_of_mem hne hmem
  · refine .inr fun c hc => ?_
    have hmem := h c (by simp [← hy, List.head?_append, Option.mem_def.mp hc])
    have hne : c ≠ separator := by
      rintro rfl
      exact hy' (List.mem_of_mem_head? hc)
    exact List.mem_of_ne_of_mem hne hmem

end Splitting

section Trimming

variable {c : Char}

theorem Edge.eq_nil {x y : List Char} (h : Edge [] x y) : x = [] ∨ y = [] := by
  rcases h with h | h
  · refine .inl (List.getLast?_eq_none_iff.mp (Option.eq_none_iff_forall_not_mem.mpr ?_))
    exact fun c hc => List.not_mem_nil (h c hc)
  · refine .inr (List.head?_eq_none_iff.mp (Option.eq_none_iff_forall_not_mem.mpr ?_))
    exact fun c hc => List.not_mem_nil (h c hc)

theorem trim_cons_of_blank (hc : isBlank c) (cs : List Char) : trim (c :: cs) = trim cs := by
  rw [trim, trim, List.dropWhile_cons_of_pos hc]

theorem trim_concat_of_blank (hc : isBlank c) (cs : List Char) : trim (cs ++ [c]) = trim cs := by
  rw [trim, trim, List.dropWhile_append]
  split
  · rename_i hblank
    rw [List.isEmpty_iff.mp hblank, List.dropWhile_cons_of_pos hc]
    rfl
  · rw [List.reverse_concat, List.dropWhile_cons_of_pos hc]

/-- White space that is put in at an end of a text does not count once it is trimmed. -/
theorem trim_insert {x y : List Char} (hc : isBlank c) (h : Edge [] x y) :
    trim (x ++ c :: y) = trim (x ++ y) := by
  rcases h.eq_nil with rfl | rfl
  · exact trim_cons_of_blank hc y
  · rw [trim_concat_of_blank hc, List.append_nil]

theorem trim_eq_self {cs : List Char} (h : ∀ c ∈ cs, isBlank c = false) : trim cs = cs := by
  have hkeep : ∀ {ds : List Char}, (∀ c ∈ ds, isBlank c = false) → ds.dropWhile isBlank = ds := by
    intro ds hds
    cases ds with
    | nil => rfl
    | cons c ds => exact List.dropWhile_cons_of_neg (by simp [hds c List.mem_cons_self])
  rw [trim, hkeep h, hkeep fun c hc => h c (List.mem_reverse.mp hc), List.reverse_reverse]

theorem exists_trim (cs : List Char) : ∃ front back, (∀ c ∈ front, isBlank c) ∧
    (∀ c ∈ back, isBlank c) ∧ cs = front ++ (trim cs ++ back) := by
  refine ⟨cs.takeWhile isBlank, (cs.dropWhile isBlank).rtakeWhile isBlank,
    fun c => List.mem_takeWhile_imp, fun c => List.mem_rtakeWhile_imp, ?_⟩
  have htrim : trim cs = (cs.dropWhile isBlank).rdropWhile isBlank := rfl
  rw [htrim, List.rdropWhile_append_rtakeWhile, List.takeWhile_append_dropWhile]

end Trimming

end BehaviorTree.Text
