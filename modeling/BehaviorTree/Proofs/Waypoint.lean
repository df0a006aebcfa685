import BehaviorTree.Proofs.Record
import BehaviorTree.Proofs.Text.Parts
import BehaviorTree.Tick.Waypoint
import Mathlib.Data.List.Forall2
import Mathlib.Data.Set.List
import Mathlib.Logic.Relation

/-!
# Routes

A route is read segment by segment: it has a point for each segment that is not empty, and none at all if
one of these is no point. Routes that are put together with a semicolon are read one after the other, and
semicolons and white space around what is read do not count.
-/

namespace BehaviorTree.Waypoint

open Relation

/-- Whether a segment is a point: two numbers with a comma between them. -/
def Spells (segment : List Char) (v : Vec2) : Prop :=
  ∃ x y, Text.splitAt ',' segment = [x, y] ∧ coordinate? x = some v.x ∧ coordinate? y = some v.y

def Blank (text : String) : Prop :=
  ∀ segment ∈ Text.splitAt ';' text.toList, Text.trim segment = []

/-- Whether a segment of a route is neither empty nor a point once trimmed. -/
def Malformed (text : String) : Prop :=
  ∃ segment ∈ Text.splitAt ';' text.toList, Text.trim segment ≠ [] ∧
    ∀ v, ¬ Spells (Text.trim segment) v

/-- Whether a text differs from another by a semicolon at an edge of a segment, or by white space at an
edge of a segment or of a number, which are the ends of the text and the places next to separators. -/
inductive Padded : List Char → List Char → Prop where
  | semicolon {a b : List Char} (edge : Text.Edge [';'] a b) : Padded (a ++ b) (a ++ ';' :: b)
  | blank {a b : List Char} {c : Char} (blank : Text.isBlank c) (edge : Text.Edge [';', ','] a b) :
      Padded (a ++ b) (a ++ c :: b)

section Segments

/-- The numbers of a segment, trimmed. -/
private def fields (segment : List Char) : List (List Char) :=
  (Text.splitAt ',' segment).map Text.trim

theorem point?_eq_some_iff {segment : List Char} {v : Vec2} :
    point? segment = some v ↔ Spells segment v := by
  obtain ⟨x, y⟩ := v
  rw [point?, Spells]
  split
  · rename_i x' y' hsplit
    simp [hsplit, Option.bind_eq_some_iff]
  · rename_i hnone
    refine iff_of_false (by simp) ?_
    rintro ⟨x, y, hsplit, -⟩
    exact hnone x y hsplit

private theorem point?_congr {segment segment' : List Char} (h : fields segment = fields segment') :
    point? segment = point? segment' := by
  have hread : ∀ segment v, point? segment = some v ↔
      ∃ x y, fields segment = [x, y] ∧ (Numeral.ofText? x).map (·.toSingle) = some v.x ∧
        (Numeral.ofText? y).map (·.toSingle) = some v.y := by
    intro segment v
    rw [point?_eq_some_iff, Spells, fields]
    constructor
    · rintro ⟨x, y, hsplit, hx, hy⟩
      exact ⟨Text.trim x, Text.trim y, by rw [hsplit]; rfl, hx, hy⟩
    · rintro ⟨_, _, hfields, hx, hy⟩
      obtain ⟨x, rest, hsplit, rfl, hrest⟩ := List.map_eq_cons_iff.mp hfields
      obtain ⟨y, rfl, rfl⟩ := List.map_eq_singleton_iff.mp hrest
      exact ⟨x, y, hsplit, hx, hy⟩
  exact Option.ext fun v => by rw [hread, hread, h]

private theorem ne_comma {c : Char} (hc : Text.isBlank c) : c ≠ ',' := by
  rintro rfl
  exact absurd hc (by decide)

private theorem ne_semicolon {c : Char} (hc : Text.isBlank c) : c ≠ ';' := by
  rintro rfl
  exact absurd hc (by decide)

private theorem fields_insert {a b : List Char} {c : Char} (hc : Text.isBlank c)
    (h : Text.Edge [','] a b) : fields (a ++ c :: b) = fields (a ++ b) := by
  obtain ⟨before, x, y, after, hold, -, hnew, hedge⟩ := Text.splitAt_insert ',' a b
  rw [fields, fields, hold, hnew c (ne_comma hc), List.map_append, List.map_append, List.map_cons,
    List.map_cons, Text.trim_insert hc (hedge [] h)]

private theorem fields_trim (segment : List Char) : fields (Text.trim segment) = fields segment := by
  have hfront : ∀ front rest : List Char, (∀ c ∈ front, Text.isBlank c) →
      fields (front ++ rest) = fields rest := by
    intro front rest h
    induction front with
    | nil => rfl
    | cons c front ih =>
      obtain ⟨hc, hfront⟩ := List.forall_mem_cons.mp h
      exact (fields_insert (a := []) hc (.inl (by simp))).trans (ih hfront)
  have hback : ∀ back rest : List Char, (∀ c ∈ back, Text.isBlank c) →
      fields (rest ++ back) = fields rest := by
    intro back rest h
    induction back using List.reverseRecOn with
    | nil => rw [List.append_nil]
    | append_singleton back c ih =>
      obtain ⟨hback, hc⟩ := List.forall_mem_append.mp h
      rw [← List.append_assoc, fields_insert (b := []) (hc c List.mem_cons_self) (.inr (by simp)),
        List.append_nil, ih hback]
  obtain ⟨front, back, hf, hb, hsegment⟩ := Text.exists_trim segment
  conv_rhs => rw [hsegment, hfront front _ hf, hback back _ hb]

private theorem trim_eq_nil_iff {segment : List Char} :
    Text.trim segment = [] ↔ fields segment = [[]] := by
  constructor
  · intro h
    rw [← fields_trim, h]
    rfl
  · intro h
    obtain ⟨part, hpart, htrim⟩ := List.map_eq_singleton_iff.mp h
    rw [← Text.eq_of_splitAt_eq_singleton hpart, htrim]

/-- What the segments of a route that are not empty are read as. -/
def readings (parts : List (List Char)) : List (Option Vec2) :=
  ((parts.map Text.trim).filter (!·.isEmpty)).map point?

@[simp] theorem readings_nil_cons (parts : List (List Char)) : readings ([] :: parts) = readings parts :=
  rfl

theorem readings_append (parts parts' : List (List Char)) :
    readings (parts ++ parts') = readings parts ++ readings parts' := by
  rw [readings, List.map_append, List.filter_append, List.map_append]
  rfl

private theorem readings_cons_congr {part part' : List Char} (h : fields part = fields part')
    (parts : List (List Char)) : readings (part :: parts) = readings (part' :: parts) := by
  have hempty : (Text.trim part).isEmpty = (Text.trim part').isEmpty := by
    rw [Bool.eq_iff_iff, List.isEmpty_iff, List.isEmpty_iff, trim_eq_nil_iff, trim_eq_nil_iff, h]
  have hpoint : point? (Text.trim part) = point? (Text.trim part') :=
    point?_congr (by rw [fields_trim, fields_trim, h])
  simp only [readings, List.map_cons, List.filter_cons, hempty]
  split
  · rw [List.map_cons, List.map_cons, hpoint]
  · rfl

/-- Padding does not change what the segments of a route are read as. -/
theorem Padded.readings_eq {cs cs' : List Char} (h : Padded cs cs') :
    readings (Text.splitAt ';' cs) = readings (Text.splitAt ';' cs') := by
  cases h with
  | @semicolon a b edge =>
    obtain ⟨before, x, y, after, hold, hnew, -, hedge⟩ := Text.splitAt_insert ';' a b
    rw [hold, hnew, readings_append, readings_append]
    rcases (hedge [] edge).eq_nil with rfl | rfl
    · rfl
    · have hcut := readings_append [x] ([] :: after)
      rw [readings_nil_cons, ← readings_append] at hcut
      rw [List.append_nil]
      exact congrArg _ hcut.symm
  | @blank a b c hc edge =>
    obtain ⟨before, x, y, after, hold, -, hnew, hedge⟩ := Text.splitAt_insert ';' a b
    rw [hold, hnew c (ne_semicolon hc), readings_append, readings_append,
      readings_cons_congr (fields_insert hc (hedge [','] edge))]

theorem readings_eq_of_eqvGen {cs cs' : List Char} (h : EqvGen Padded cs cs') :
    readings (Text.splitAt ';' cs) = readings (Text.splitAt ';' cs') := by
  induction h with
  | rel _ _ h => exact h.readings_eq
  | refl => rfl
  | symm _ _ _ ih => exact ih.symm
  | trans _ _ _ _ _ ih ih' => exact ih.trans ih'

end Segments

section Routes

variable {a b : String} {route : List Vec2}

theorem route?_eq_some_iff : route? a = some route ↔
    readings (Text.splitAt ';' a.toList) = route.map some ∧ route ≠ [] := by
  rw [route?, Option.filter_eq_some_iff, mapM_eq_some_iff]
  simp [readings, segments]

theorem route?_congr
    (h : readings (Text.splitAt ';' a.toList) = readings (Text.splitAt ';' b.toList)) :
    route? a = route? b := by
  exact Option.ext fun route => by rw [route?_eq_some_iff, route?_eq_some_iff, h]

theorem blank_iff : Blank a ↔ readings (Text.splitAt ';' a.toList) = [] := by
  simp [Blank, readings]

theorem malformed_iff : Malformed a ↔ none ∈ readings (Text.splitAt ';' a.toList) := by
  have hnone : ∀ segment, point? segment = none ↔ ∀ v, ¬ Spells segment v := by
    intro segment
    simp only [Option.eq_none_iff_forall_ne_some, ne_eq, point?_eq_some_iff]
  simp only [Malformed, readings, ← hnone, List.mem_map, List.mem_filter]
  simp [and_assoc]

theorem route?_eq_none_iff : route? a = none ↔ Blank a ∨ Malformed a := by
  rw [Option.eq_none_iff_forall_ne_some, blank_iff, malformed_iff]
  simp only [ne_eq, route?_eq_some_iff]
  generalize readings (Text.splitAt ';' a.toList) = read
  constructor
  · intro hnone
    by_contra hread
    obtain ⟨hsome, hnot⟩ := not_or.mp hread
    obtain ⟨route, rfl⟩ : read ∈ Set.range (List.map some) := by
      rw [Set.range_list_map]
      exact fun reading hmem => Option.ne_none_iff_exists.mp fun h => hnot (h ▸ hmem)
    refine hnone route ⟨rfl, ?_⟩
    rintro rfl
    exact hsome rfl
  · rintro hread route ⟨rfl, hne⟩
    simp [hne] at hread

/-- A route has one point for each of its segments that are not empty, in order. -/
theorem forall₂_spells (h : route? a = some route) :
    List.Forall₂ Spells (segments a.toList) route := by
  have hread : (segments a.toList).map point? = route.map some := (route?_eq_some_iff.mp h).1
  rw [← List.forall₂_eq_eq_eq, List.forall₂_map_left_iff, List.forall₂_map_right_iff] at hread
  exact hread.imp fun _ _ => point?_eq_some_iff.mp

theorem readings_join (a b : String) : readings (Text.splitAt ';' (a ++ ";" ++ b).toList) =
    readings (Text.splitAt ';' a.toList) ++ readings (Text.splitAt ';' b.toList) := by
  have hjoin : (a ++ ";" ++ b).toList = a.toList ++ ';' :: b.toList := by simp
  rw [hjoin, Text.splitAt_append_cons, readings_append]

/-- A route is there unless it is blank or malformed, and has one point for each segment that is not
empty, in order. Two routes with a semicolon between them are one after the other, unless one of them is
malformed; a blank one adds nothing. Padding changes nothing. -/
theorem route?_compositional (a b : String) :
    (route? a = none ↔ Blank a ∨ Malformed a) ∧
    (∀ route, route? a = some route → List.Forall₂ Spells (segments a.toList) route) ∧
    (∀ route route', route? a = some route → route? b = some route' →
      route? (a ++ ";" ++ b) = some (route ++ route')) ∧
    (Blank a → route? (a ++ ";" ++ b) = route? b) ∧
    (Blank b → route? (a ++ ";" ++ b) = route? a) ∧
    (Malformed a ∨ Malformed b → route? (a ++ ";" ++ b) = none) ∧
    (EqvGen Padded a.toList b.toList → route? a = route? b) := by
  have hjoin := readings_join a b
  refine ⟨route?_eq_none_iff, fun _ => forall₂_spells, fun route route' ha hb => ?_, fun ha => ?_,
    fun hb => ?_, fun h => ?_, fun h => ?_⟩
  · obtain ⟨ha, hne⟩ := route?_eq_some_iff.mp ha
    rw [route?_eq_some_iff, hjoin, ha, (route?_eq_some_iff.mp hb).1, ← List.map_append]
    exact ⟨rfl, List.append_ne_nil_of_left_ne_nil hne route'⟩
  · rw [blank_iff.mp ha, List.nil_append] at hjoin
    exact route?_congr hjoin
  · rw [blank_iff.mp hb, List.append_nil] at hjoin
    exact route?_congr hjoin
  · rw [route?_eq_none_iff, malformed_iff, hjoin, List.mem_append, ← malformed_iff, ← malformed_iff]
    exact .inr h
  · exact route?_congr (readings_eq_of_eqvGen h)

/-- Two routes that are put together, one behind which only semicolons follow, one that is spoilt by the
segments behind it, and one with padding. -/
theorem route?_compositional_padded :
    route? ("1,2" ++ ";" ++ "3.5,-4;") = some [⟨1, 2⟩, ⟨3.5, -4⟩] ∧
      route? ("1,2" ++ ";" ++ "; ;") = some [⟨1, 2⟩] ∧ route? ("1,2" ++ ";" ++ "3;4") = none ∧
      route? ";1 ,2" = some [⟨1, 2⟩] := by
  have hfirst : route? "1,2" = some [⟨1, 2⟩] := by decide +kernel
  have hsecond : route? "3.5,-4;" = some [⟨3.5, -4⟩] := by decide +kernel
  have hblank : Blank "; ;" := by
    unfold Blank
    decide
  have hmalformed : Malformed "3;4" := by
    have hfields : Text.splitAt ',' (Text.trim ['3']) = [['3']] := by decide
    refine ⟨['3'], by decide, by decide, ?_⟩
    rintro v ⟨x, y, hsplit, -⟩
    rw [hfields] at hsplit
    cases hsplit
  have hpadded : EqvGen Padded "1,2".toList ";1 ,2".toList := by
    refine .trans _ "1 ,2".toList _ (.rel _ _ ?_) (.rel _ _ ?_)
    · exact .blank (a := ['1']) (b := [',', '2']) (c := ' ') (by decide) (.inr (by simp))
    · exact .semicolon (a := []) (b := "1 ,2".toList) (.inl (by simp))
  obtain ⟨-, -, hjoin, -⟩ := route?_compositional "1,2" "3.5,-4;"
  obtain ⟨-, -, -, -, hnothing, -⟩ := route?_compositional "1,2" "; ;"
  obtain ⟨-, -, -, -, -, hspoilt, -⟩ := route?_compositional "1,2" "3;4"
  obtain ⟨-, -, -, -, -, -, hsame⟩ := route?_compositional "1,2" ";1 ,2"
  exact ⟨hjoin _ _ hfirst hsecond, (hnothing hblank).trans hfirst, hspoilt (.inr hmalformed),
    (hsame hpadded).symm.trans hfirst⟩

end Routes

end BehaviorTree.Waypoint
