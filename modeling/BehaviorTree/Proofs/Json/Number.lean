import BehaviorTree.Json.Parser
import BehaviorTree.Json.Printer
import BehaviorTree.Proofs.Decimal.Digits

/-!
# Numbers read back

Decimals are written with the point among their digits or with a power of ten. Either text is read to
where it ends, and read as the value of the decimal.
-/

namespace BehaviorTree

namespace Decimal

theorem naturalOf_append (cs ds : List Char) :
    naturalOf (cs ++ ds) = 10 ^ ds.length * naturalOf cs + naturalOf ds :=
  (Nat.ofDigitChars_append 0).trans Nat.ofDigitChars_eq_ofDigitChars_zero

@[simp] theorem naturalOf_digitsOf (n : Nat) : naturalOf (digitsOf n) = n :=
  Nat.ofDigitChars_ten_toDigits

theorem isDigit_of_mem_digitsOf {n : Nat} {c : Char} (h : c ∈ digitsOf n) : c.isDigit :=
  Nat.isDigit_of_mem_toDigits (by decide) (by decide) h

theorem digitsOf_ne_nil (n : Nat) : digitsOf n ≠ [] := Nat.toDigits_ne_nil

theorem head?_digitsOf {n : Nat} (h : n ≠ 0) : (digitsOf n).head? ≠ some '0' := by
  induction n using Nat.strongRecOn with
  | ind n ih =>
    rw [digitsOf, Nat.toDigits_eq_if (by decide)]
    split
    · rename_i hlt
      interval_cases n <;> simp_all
    · have hquotient : n / 10 ≠ 0 := by omega
      have hhead := ih (n / 10) (by omega) hquotient
      rw [List.head?_append_of_ne_nil _ Nat.toDigits_ne_nil]
      exact hhead

end Decimal

namespace Json

open Decimal

/-- Whether what stands behind a number does not belong to it. -/
def Ends (rest : List Char) : Prop :=
  ∀ c ∈ rest.head?, c.isDigit = false ∧ c ≠ '.' ∧ c ≠ 'e' ∧ c ≠ 'E'

/-- Whether a run of digits can stand before the point. -/
structure IsWhole (whole : List Char) : Prop where
  digits : ∀ c ∈ whole, c.isDigit
  nonempty : whole ≠ []
  leading : whole.head? = some '0' → whole.length ≤ 1

theorem span_digits {digits rest : List Char} (hdigits : ∀ c ∈ digits, c.isDigit)
    (hrest : ∀ c ∈ rest.head?, c.isDigit = false) :
    (digits ++ rest).span Char.isDigit = (digits, rest) := by
  rw [List.span_eq_takeWhile_dropWhile, List.takeWhile_append_of_pos hdigits,
    List.dropWhile_append_of_pos hdigits]
  cases rest with
  | nil => simp
  | cons c more => simp [hrest c rfl]

theorem span_digits_self {digits : List Char} (hdigits : ∀ c ∈ digits, c.isDigit) :
    digits.span Char.isDigit = (digits, []) := by
  have hspan := span_digits hdigits (show ∀ c ∈ ([] : List Char).head?, c.isDigit = false by simp)
  rwa [List.append_nil] at hspan

theorem fractionPart_of_ne {rest : List Char} (h : ∀ c ∈ rest.head?, c ≠ '.') :
    fractionPart rest = some ([], rest) := by
  cases rest with
  | nil => rfl
  | cons c more =>
    rw [fractionPart]
    rintro digits ⟨rfl, -⟩
    exact h '.' rfl rfl

theorem exponentPart_of_ne {rest : List Char} (h : ∀ c ∈ rest.head?, c ≠ 'e' ∧ c ≠ 'E') :
    exponentPart rest = some (none, rest) := by
  cases rest with
  | nil => rfl
  | cons c more => simp [exponentPart, h c rfl]

variable {codec : NumberCodec} {whole fraction text rest rest' rest'' : List Char} (negative : Bool)

theorem fractionPart_of_digits (hfraction : ∀ c ∈ fraction, c.isDigit) (hsome : fraction ≠ [])
    (hrest : ∀ c ∈ rest.head?, c.isDigit = false) :
    fractionPart ('.' :: (fraction ++ rest)) = some (fraction, rest) := by
  have hempty : fraction.isEmpty = false := List.isEmpty_eq_false_iff.mpr hsome
  simp only [fractionPart, span_digits hfraction hrest, hempty]
  rfl

theorem exponentPart_of_power (power : Int) :
    exponentPart ('e' :: (if power < 0 then '-' else '+') :: digitsOf power.natAbs) =
      some (some power, []) := by
  have hspan := span_digits_self fun c => isDigit_of_mem_digitsOf (n := power.natAbs)
  have hempty : (digitsOf power.natAbs).isEmpty = false :=
    List.isEmpty_eq_false_iff.mpr (digitsOf_ne_nil _)
  have hsign : ∀ digits, exponentSign ((if power < 0 then '-' else '+') :: digits) =
      (decide (power < 0), digits) := by
    intro digits
    by_cases hnegative : power < 0 <;> simp [exponentSign, hnegative]
  have hvalue : (if decide (power < 0) = true then -(power.natAbs : Int) else power.natAbs) =
      power := by
    simp only [decide_eq_true_eq]
    omega
  rw [exponentPart, if_pos (.inl rfl), hsign]
  dsimp only
  rw [hspan]
  simp only [hempty, naturalOf_digitsOf, hvalue]
  rfl

/-- What a number is read as: an integer, when it has neither a fraction nor a power of ten. -/
def numberOf (codec : NumberCodec) (negative : Bool) (whole fraction : List Char)
    (power : Option Int) : Document :=
  match fraction, power with
  | [], none => ofDigits codec negative whole
  | _, _ => ofDecimal codec (.ofParts negative whole fraction (power.getD 0))

private theorem unsignedNumber_of_parts (hwhole : IsWhole whole)
    (hspan : text.span Char.isDigit = (whole, rest)) {power : Option Int}
    (hfraction : fractionPart rest = some (fraction, rest'))
    (hpower : exponentPart rest' = some (power, rest'')) :
    unsignedNumber codec negative text = some (numberOf codec negative whole fraction power, rest'') := by
  have hlead : ¬ (whole.isEmpty ∨ whole.head? = some '0' ∧ 1 < whole.length) := by
    rintro (hempty | ⟨hzero, hlength⟩)
    · exact hwhole.nonempty (List.isEmpty_iff.mp hempty)
    · exact Nat.not_lt.mpr (hwhole.leading hzero) hlength
  rw [unsignedNumber, hspan]
  dsimp only
  rw [if_neg hlead, hfraction, Option.bind_eq_bind, Option.bind_some]
  dsimp only
  rw [hpower, Option.bind_eq_bind, Option.bind_some]
  cases fraction <;> cases power <;> rfl

section Append

theorem span_append {digits : List Char} (h : text.span Char.isDigit = (digits, rest'))
    (hrest : ∀ c ∈ rest.head?, c.isDigit = false) :
    (text ++ rest).span Char.isDigit = (digits, rest' ++ rest) := by
  rw [List.span_eq_takeWhile_dropWhile, Prod.mk.injEq] at h
  obtain ⟨rfl, rfl⟩ := h
  have hdigits : ∀ c ∈ text.takeWhile Char.isDigit, c.isDigit := fun c => List.mem_takeWhile_imp
  have hafter : ∀ c ∈ (text.dropWhile Char.isDigit ++ rest).head?, c.isDigit = false := by
    have hhead := List.head?_dropWhile_not Char.isDigit text
    cases hdrop : text.dropWhile Char.isDigit with
    | nil => exact hrest
    | cons c more =>
      rw [hdrop] at hhead
      simpa using hhead
  rw [← span_digits hdigits hafter, ← List.append_assoc, List.takeWhile_append_dropWhile]

theorem fractionPart_append (h : fractionPart text = some (fraction, rest')) (hrest : Ends rest) :
    fractionPart (text ++ rest) = some (fraction, rest' ++ rest) := by
  cases text with
  | nil =>
    cases h
    exact fractionPart_of_ne fun c hc => (hrest c hc).2.1
  | cons c more =>
    by_cases hpoint : c = '.'
    · obtain ⟨digits, after, hspan⟩ : ∃ digits after, more.span Char.isDigit = (digits, after) :=
        ⟨_, _, rfl⟩
      have hspan' := span_append hspan fun c hc => (hrest c hc).1
      subst hpoint
      simp only [List.cons_append, fractionPart, hspan, hspan'] at h ⊢
      split at h
      · cases h
      · rename_i hsome
        cases h
        exact if_neg hsome
    · rw [fractionPart_of_ne (by simpa using hpoint)] at h
      cases h
      exact fractionPart_of_ne (by simpa using hpoint)

theorem exponentSign_append (h : text ≠ []) :
    exponentSign (text ++ rest) = ((exponentSign text).1, (exponentSign text).2 ++ rest) := by
  cases text with
  | nil => exact absurd rfl h
  | cons c more =>
    by_cases hminus : c = '-'
    · subst hminus
      rfl
    by_cases hplus : c = '+'
    · subst hplus
      rfl
    simp [exponentSign, hminus, hplus]

theorem exponentPart_append {power : Option Int} (h : exponentPart text = some (power, rest'))
    (hrest : Ends rest) : exponentPart (text ++ rest) = some (power, rest' ++ rest) := by
  cases text with
  | nil =>
    cases h
    exact exponentPart_of_ne fun c hc => (hrest c hc).2.2
  | cons c more =>
    by_cases hletter : c = 'e' ∨ c = 'E'
    · rw [List.cons_append, exponentPart, if_pos hletter]
      rw [exponentPart, if_pos hletter] at h
      have hmore : more ≠ [] := by
        rintro rfl
        simp [exponentSign] at h
      rw [exponentSign_append hmore]
      obtain ⟨digits, after, hspan⟩ : ∃ digits after,
        (exponentSign more).2.span Char.isDigit = (digits, after) := ⟨_, _, rfl⟩
      dsimp only at h ⊢
      rw [span_append hspan fun c hc => (hrest c hc).1]
      rw [hspan] at h
      dsimp only at h ⊢
      split at h
      · cases h
      · rename_i hsome
        cases h
        exact if_neg hsome
    · rw [not_or] at hletter
      rw [exponentPart_of_ne (by simpa using hletter)] at h
      cases h
      exact exponentPart_of_ne (by simpa using hletter)

theorem parts_of_unsignedNumber {d : Document}
    (h : unsignedNumber codec negative text = some (d, rest'')) :
    ∃ whole rest fraction rest' power, IsWhole whole ∧ text.span Char.isDigit = (whole, rest) ∧
      fractionPart rest = some (fraction, rest') ∧ exponentPart rest' = some (power, rest'') ∧
      d = numberOf codec negative whole fraction power := by
  rw [unsignedNumber] at h
  obtain ⟨whole, rest, hspan⟩ : ∃ whole rest, text.span Char.isDigit = (whole, rest) :=
    ⟨_, _, rfl⟩
  rw [hspan] at h
  dsimp only at h
  split at h
  · cases h
  rename_i hlead
  rw [not_or] at hlead
  simp only [Option.bind_eq_bind, Option.bind_eq_some_iff] at h
  obtain ⟨⟨fraction, rest'⟩, hfraction, ⟨power, after⟩, hpower, h⟩ := h
  have hdigits : ∀ c ∈ whole, c.isDigit := by
    rw [List.span_eq_takeWhile_dropWhile, Prod.mk.injEq] at hspan
    rw [← hspan.1]
    exact fun c => List.mem_takeWhile_imp
  have hwhole : IsWhole whole :=
    ⟨hdigits, by simpa using hlead.1, fun hzero => Nat.not_lt.mp fun hlt => hlead.2 ⟨hzero, hlt⟩⟩
  obtain ⟨rfl, rfl⟩ : d = numberOf codec negative whole fraction power ∧ rest'' = after := by
    cases fraction <;> cases power <;> cases h <;> exact ⟨rfl, rfl⟩
  exact ⟨whole, rest, fraction, rest', power, hwhole, hspan, hfraction, hpower, rfl⟩

theorem unsignedNumber_append {d : Document} (h : unsignedNumber codec negative text = some (d, rest'))
    (hrest : Ends rest) : unsignedNumber codec negative (text ++ rest) = some (d, rest' ++ rest) := by
  obtain ⟨whole, after, fraction, after', power, hwhole, hspan, hfraction, hpower, rfl⟩ :=
    parts_of_unsignedNumber negative h
  exact unsignedNumber_of_parts negative hwhole (span_append hspan fun c hc => (hrest c hc).1)
    (fractionPart_append hfraction hrest) (exponentPart_append hpower hrest)

/-- A number is read alike in front of what does not belong to it. -/
theorem number_append {d : Document} (h : number codec text = some (d, rest')) (hrest : Ends rest) :
    number codec (text ++ rest) = some (d, rest' ++ rest) := by
  cases text with
  | nil => simp [number, unsignedNumber] at h
  | cons c more =>
    rw [List.cons_append, number.eq_def]
    rw [number.eq_def] at h
    split at h
    · rename_i heq
      cases heq
      exact unsignedNumber_append true h hrest
    · rename_i hsign
      split
      · rename_i heq
        cases heq
        exact absurd rfl (hsign more)
      · exact unsignedNumber_append false h hrest

end Append

theorem unsignedNumber_of_whole (hwhole : IsWhole whole) :
    unsignedNumber codec negative whole = some (ofDigits codec negative whole, []) :=
  unsignedNumber_of_parts negative hwhole (span_digits_self hwhole.digits) rfl rfl

theorem unsignedNumber_of_fraction (hwhole : IsWhole whole) (hfraction : ∀ c ∈ fraction, c.isDigit)
    (hsome : fraction ≠ []) :
    unsignedNumber codec negative (whole ++ '.' :: fraction) =
      some (ofDecimal codec (.ofParts negative whole fraction 0), []) := by
  have hpart := fractionPart_of_digits hfraction hsome
    (show ∀ c ∈ ([] : List Char).head?, c.isDigit = false by simp)
  rw [List.append_nil] at hpart
  rw [unsignedNumber_of_parts negative hwhole (span_digits hwhole.digits (by simp)) hpart rfl]
  cases fraction with
  | nil => exact absurd rfl hsome
  | cons _ _ => rfl

theorem unsignedNumber_of_power (hwhole : IsWhole whole) (hfraction : ∀ c ∈ fraction, c.isDigit)
    (power : Int) :
    unsignedNumber codec negative (whole ++ ((if fraction = [] then [] else '.' :: fraction) ++
      'e' :: (if power < 0 then '-' else '+') :: digitsOf power.natAbs)) =
      some (ofDecimal codec (.ofParts negative whole fraction power), []) := by
  have hpower := exponentPart_of_power power
  by_cases hempty : fraction = []
  · rw [if_pos hempty, hempty, List.nil_append]
    rw [unsignedNumber_of_parts negative hwhole (span_digits hwhole.digits (by simp))
      (fractionPart_of_ne (by simp)) hpower]
    rfl
  · rw [if_neg hempty, List.cons_append]
    rw [unsignedNumber_of_parts negative hwhole (span_digits hwhole.digits (by simp))
      (fractionPart_of_digits hfraction hempty (by simp)) hpower]
    cases fraction <;> rfl

theorem eq_zero_of_head? {n : Nat} (h : (digitsOf n).head? = some '0') : n = 0 := by
  by_contra hn
  exact head?_digitsOf hn h

theorem isWhole_digitsOf (n : Nat) : IsWhole (digitsOf n) where
  digits _ := isDigit_of_mem_digitsOf
  nonempty := digitsOf_ne_nil n
  leading h := by
    rw [eq_zero_of_head? h]
    rfl

/-- Whether the text of a number without its sign is read to where it ends, as a value. -/
def ReadsValue (codec : NumberCodec) (text : List Char) (v : ℚ) : Prop :=
  ∀ negative : Bool, ∃ d : Decimal,
    unsignedNumber codec negative text = some (ofDecimal codec d, []) ∧
      d.negative = negative ∧ d.magnitude = v

theorem naturalOf_replicate (k : Nat) : naturalOf (List.replicate k '0') = 0 :=
  Nat.ofDigitChars_replicate_zero

theorem isDigit_of_mem_replicate {k : Nat} {c : Char} (h : c ∈ List.replicate k '0') :
    c.isDigit := by
  rw [List.eq_of_mem_replicate h]
  rfl

private theorem readsValue_fraction {v : ℚ} (hwhole : IsWhole whole)
    (hfraction : ∀ c ∈ fraction, c.isDigit) (hsome : fraction ≠ [])
    (hv : (naturalOf (whole ++ fraction) : ℚ) * 10 ^ (-(fraction.length : Int)) = v) :
    ReadsValue codec (whole ++ '.' :: fraction) v := by
  intro negative
  refine ⟨_, unsignedNumber_of_fraction negative hwhole hfraction hsome, rfl, ?_⟩
  rw [magnitude, ofParts, zero_sub, hv]

private theorem readsValue_below_one (n zeros : Nat) :
    ReadsValue codec (['0'] ++ '.' :: (List.replicate zeros '0' ++ digitsOf n))
      (n * 10 ^ (-(zeros : Int) - (digitsOf n).length)) := by
  have hwhole : IsWhole ['0'] := ⟨by simp, by simp, by simp⟩
  have hnatural : naturalOf (['0'] ++ (List.replicate zeros '0' ++ digitsOf n)) = n := by
    rw [naturalOf_append, naturalOf_append, naturalOf_replicate, naturalOf_digitsOf]
    simp [naturalOf]
  apply readsValue_fraction hwhole
  · intro c hc
    rcases List.mem_append.mp hc with hc | hc
    · exact isDigit_of_mem_replicate hc
    · exact isDigit_of_mem_digitsOf hc
  · simp [digitsOf_ne_nil]
  · rw [hnatural, List.length_append, List.length_replicate]
    congr 2
    omega

private theorem readsValue_whole {n zeros : Nat} (h : n = 0 → zeros = 0) :
    ReadsValue codec (digitsOf n ++ List.replicate zeros '0' ++ '.' :: ['0']) (n * 10 ^ (zeros : Int)) := by
  have hwhole : IsWhole (digitsOf n ++ List.replicate zeros '0') := by
    refine ⟨?_, by simp [digitsOf_ne_nil], ?_⟩
    · intro c hc
      rcases List.mem_append.mp hc with hc | hc
      · exact isDigit_of_mem_digitsOf hc
      · exact isDigit_of_mem_replicate hc
    · rw [List.head?_append_of_ne_nil _ (digitsOf_ne_nil n)]
      intro hhead
      have hn := eq_zero_of_head? hhead
      rw [h hn, hn]
      decide
  have hnatural : naturalOf (digitsOf n ++ List.replicate zeros '0' ++ ['0']) =
      10 * (10 ^ zeros * n) := by
    rw [naturalOf_append, naturalOf_append, naturalOf_replicate, naturalOf_digitsOf]
    simp [naturalOf]
  apply readsValue_fraction hwhole
  · simp
  · simp
  · rw [hnatural, zpow_natCast]
    push_cast
    rw [List.length_singleton, Nat.cast_one, zpow_neg_one]
    ring

private theorem readsValue_between {n places : Nat} (hplaces : 0 < places)
    (h : places < (digitsOf n).length) :
    ReadsValue codec ((digitsOf n).take places ++ '.' :: (digitsOf n).drop places)
      (n * 10 ^ ((places : Int) - (digitsOf n).length)) := by
  have hwhole : IsWhole ((digitsOf n).take places) := by
    refine ⟨fun c hc => isDigit_of_mem_digitsOf (List.mem_of_mem_take hc), ?_, ?_⟩
    · simp [digitsOf_ne_nil]
      omega
    · rw [List.head?_take, if_neg (Nat.ne_of_gt hplaces)]
      intro hhead
      rw [eq_zero_of_head? hhead] at h
      exact absurd h (Nat.not_lt.mpr hplaces)
  apply readsValue_fraction hwhole
  · exact fun c hc => isDigit_of_mem_digitsOf (List.mem_of_mem_drop hc)
  · simpa using h
  · rw [List.take_append_drop, naturalOf_digitsOf, List.length_drop]
    congr 2
    omega

theorem readsValue_positional {n : Nat} {e : Int} (h : n = 0 → e = 0) :
    ReadsValue codec (positional (digitsOf n) e) (n * 10 ^ (e + 1 - (digitsOf n).length)) := by
  rw [positional]
  split
  · rename_i hnegative
    have hexponent : e + 1 - ((digitsOf n).length : Int) =
        -((-e - 1).toNat : Int) - (digitsOf n).length := by omega
    rw [hexponent]
    exact readsValue_below_one n _
  rename_i he
  dsimp only
  split
  · rename_i hlength
    have hexponent : e + 1 - ((digitsOf n).length : Int) =
        (e.toNat + 1 - (digitsOf n).length : Nat) := by omega
    rw [hexponent]
    apply readsValue_whole
    intro hn
    rw [h hn, hn]
    decide
  · rename_i hlength
    have hexponent : e + 1 - ((digitsOf n).length : Int) =
        ((e.toNat + 1 : Nat) : Int) - (digitsOf n).length := by omega
    rw [hexponent]
    exact readsValue_between (Nat.succ_pos _) (Nat.not_le.mp hlength)

theorem readsValue_scientific (n : Nat) (e : Int) :
    ReadsValue codec (scientific (digitsOf n) e) (n * 10 ^ (e + 1 - (digitsOf n).length)) := by
  intro negative
  have hdigits : ∀ c ∈ digitsOf n, c.isDigit := fun _ => isDigit_of_mem_digitsOf
  have hn := naturalOf_digitsOf n
  cases hlist : digitsOf n with
  | nil => exact absurd hlist (digitsOf_ne_nil n)
  | cons first fraction =>
    rw [hlist] at hdigits hn
    have hwhole : IsWhole [first] := ⟨by simpa using hdigits first (by simp), by simp, by simp⟩
    have hfraction : ∀ c ∈ fraction, c.isDigit :=
      fun c hc => hdigits c (List.mem_cons_of_mem _ hc)
    have htext : scientific (first :: fraction) e =
        [first] ++ ((if fraction = [] then [] else '.' :: fraction) ++
          'e' :: (if e < 0 then '-' else '+') :: digitsOf e.natAbs) := by
      cases fraction <;> simp [scientific]
    rw [htext]
    refine ⟨_, unsignedNumber_of_power negative hwhole hfraction e, rfl, ?_⟩
    rw [magnitude, ofParts, List.singleton_append, hn, List.length_cons]
    dsimp only
    congr 2
    push_cast
    ring

theorem number_of_unsigned {text : List Char} {found : Document × List Char}
    (h : unsignedNumber codec false text = some found) : number codec text = some found := by
  rw [number.eq_def]
  split
  · simp [unsignedNumber] at h
  · exact h

/-- The text of a decimal is read as its value. -/
theorem number_write (layout : Layout) (d : Decimal) :
    ∃ d' : Decimal, number codec (d.write layout) = some (ofDecimal codec d', []) ∧
      d'.negative = d.negative ∧ d'.magnitude = d.magnitude := by
  rw [Decimal.write]
  generalize he : (if d.digits = 0 then 0 else d.exponent + (digitsOf d.digits).length - 1) = e
  generalize htext : (if layout.least ≤ e ∧ e ≤ layout.greatest then
    positional (digitsOf d.digits) e else scientific (digitsOf d.digits) e) = text
  have hvalue : (d.digits * 10 ^ (e + 1 - (digitsOf d.digits).length) : ℚ) = d.magnitude := by
    rw [magnitude, ← he]
    by_cases hzero : d.digits = 0
    · simp [hzero]
    · rw [if_neg hzero]
      congr 2
      ring
  have hreads : ReadsValue codec text d.magnitude := by
    rw [← hvalue, ← htext]
    split
    · apply readsValue_positional
      intro hzero
      rw [← he, if_pos hzero]
    · exact readsValue_scientific _ _
  obtain ⟨d', hd', hnegative, hmagnitude⟩ := hreads d.negative
  refine ⟨d', ?_, hnegative, hmagnitude⟩
  cases hsign : d.negative with
  | true =>
    rw [hsign] at hd'
    exact hd'
  | false =>
    rw [hsign] at hd'
    exact number_of_unsigned hd'

theorem number_integer {n : Int} (h : fits 64 n) :
    number codec (numberText codec (.integer n)) = some (.number (.integer n), []) := by
  have hwhole := isWhole_digitsOf n.natAbs
  rw [fits, Bool.or_eq_true] at h
  rw [numberText]
  by_cases hnegative : n < 0
  · have hn : -(n.natAbs : Int) = n := by omega
    have hsigned : fitsSigned 64 n := by
      rcases h with hsigned | hunsigned
      · exact hsigned
      · simp only [fitsUnsigned, Bool.and_eq_true, decide_eq_true_eq] at hunsigned
        omega
    have hread : ofDigits codec true (digitsOf n.natAbs) = .number (.integer n) := by
      rw [ofDigits, naturalOf_digitsOf, if_pos rfl, hn, if_pos ⟨by omega, hsigned⟩]
    rw [if_pos hnegative, ← hread]
    exact unsignedNumber_of_whole true hwhole
  · have hn : (n.natAbs : Int) = n := by omega
    have hunsigned : fitsUnsigned 64 n := by
      rcases h with hsigned | hunsigned
      · simp only [fitsSigned, fitsUnsigned, Bool.and_eq_true, decide_eq_true_eq] at hsigned ⊢
        have hlt : (Nat.pow 2 (64 - 1) : Int) < Nat.pow 2 64 := by decide
        omega
      · exact hunsigned
    have hread : ofDigits codec false (digitsOf n.natAbs) = .number (.integer n) := by
      rw [ofDigits, naturalOf_digitsOf, if_neg Bool.false_ne_true, hn, if_pos hunsigned]
    rw [if_neg hnegative, ← hread]
    exact number_of_unsigned (unsignedNumber_of_whole false hwhole)

end Json

namespace NumberCodec

open Json

/-- Whether every finite number is read back from its text. -/
def Lossless (codec : NumberCodec) : Prop :=
  ∀ x : Float, x.isFinite → number codec (codec.double x) = some (.number (.double x), [])

theorem lossless_nearest : nearest.Lossless := by
  intro x h
  obtain ⟨d, hd, hnegative, hmagnitude⟩ : ∃ d : Decimal,
      number nearest (nearest.double x) = some (ofDecimal nearest d, []) ∧
        d.negative = (Decimal.ofDouble x).negative ∧
          d.magnitude = (Decimal.ofDouble x).magnitude :=
    number_write .double (Decimal.ofDouble x)
  have hread : nearest.read d = x :=
    (Decimal.toDouble_congr hnegative hmagnitude).trans (Decimal.toDouble_ofDouble h)
  rw [ofDecimal, hread, if_pos h] at hd
  exact hd

end NumberCodec

/-- A number that a free value keeps is read back from its text. -/
theorem Json.number_canonical {codec : NumberCodec} (hcodec : codec.Lossless) {n : Number}
    (h : Document.canonicalNumber n) {rest : List Char} (hrest : Ends rest) :
    number codec (numberText codec n ++ rest) = some (.number n, rest) := by
  have hread : number codec (numberText codec n) = some (.number n, []) := by
    cases n with
    | integer n => exact number_integer h
    | double x =>
      have htext : numberText codec (.double x) = codec.double x := if_pos h
      rw [htext, hcodec x h]
    | single x => cases h
  exact number_append hread hrest

end BehaviorTree
