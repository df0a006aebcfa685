import BehaviorTree.Proofs.Json.Kept
import BehaviorTree.Proofs.Json.Number

/-!
# Texts read back

A document is read back from its text, in the compact layout and in that with one item a line, as long
as it is not nested deeper than texts may be. Text is written in front of a given rest, and the reader
stops where that begins.
-/

namespace BehaviorTree

namespace Json

section Strings

variable {c : Char} {rest : List Char}

private theorem hexUnit?_control :
    ∀ n < 0x20, hexUnit? '0' '0' (Nat.digitChar (n / 16)) (Nat.digitChar (n % 16)) = some n := by
  decide

/-- A character is read back from what it is written as. -/
theorem pieces_escape (c : Char) {text : List Char} {parts : List Piece}
    (h : pieces text = some (parts, rest)) :
    ∃ part, pieces (escape c ++ text) = some (part :: parts, rest) ∧
      ∀ parts, join? (part :: parts) = (join? parts).map (c :: ·) := by
  rw [escape.eq_def]
  split
  case h_8 hquote hbackslash _ _ _ _ _ =>
    split
    · rename_i hcontrol
      have hunit := hexUnit?_control c.toNat hcontrol
      refine ⟨.unit c.toNat, by simp [pieces, hunit, h], fun parts => ?_⟩
      rw [join?.eq_def]
      dsimp only
      rw [if_pos (.inl (by omega)), Char.ofNat_toNat]
    · rename_i hcontrol
      have hplain : pieces (c :: text) = some (.char c :: parts, rest) := by
        rw [pieces]
        · rw [if_neg hcontrol, h]
          rfl
        · exact hquote
        · exact fun _ _ _ _ _ hc _ => hbackslash hc
        · exact fun _ _ hc _ => hbackslash hc
      exact ⟨.char c, hplain, fun _ => rfl⟩
  all_goals exact ⟨.char _, by simp [pieces, escaped?, h], fun _ => rfl⟩

private theorem pieces_writeString (cs : List Char) (rest : List Char) :
    ∃ parts, pieces (cs.foldr (fun c rest => escape c ++ rest) ('"' :: rest)) = some (parts, rest) ∧
      join? parts = some cs := by
  induction cs with
  | nil => exact ⟨[], by simp [pieces], rfl⟩
  | cons c cs ih =>
    obtain ⟨parts, hparts, hjoin⟩ := ih
    obtain ⟨part, hpart, hpart'⟩ := pieces_escape c hparts
    exact ⟨part :: parts, hpart, by rw [hpart', hjoin]; rfl⟩

theorem stringLiteral_writeString (s : String) (rest : List Char) :
    ∃ text, writeString s rest = '"' :: text ∧ stringLiteral text = some (some s, rest) := by
  obtain ⟨parts, hparts, hjoin⟩ := pieces_writeString s.toList rest
  refine ⟨_, rfl, ?_⟩
  rw [stringLiteral, hparts]
  simp [hjoin]

end Strings

end Json

namespace Document

mutual

/-- Whether a document is written as what it is: nothing of it is unreadable, and all numbers are such
that a free value keeps them. -/
def legible : Document → Bool
  | .number n => canonicalNumber n
  | .array items => legibleItems items
  | .object members => legibleMembers members
  | .unreadable => false
  | _ => true

def legibleItems : List Document → Bool
  | [] => true
  | d :: rest => legible d && legibleItems rest

def legibleMembers : List (String × Document) → Bool
  | [] => true
  | (_, d) :: rest => legible d && legibleMembers rest

end

mutual

theorem legible_of_canonical : ∀ {d : Document}, d.canonical → d.legible
  | .null, _ | .bool _, _ | .string _, _ => rfl
  | .number _, h => h
  | .array _, h => legibleItems_of_canonicalItems h
  | .object members, h => by
    simp only [canonical, Bool.and_eq_true] at h
    exact legibleMembers_of_canonicalMembers h.2

theorem legibleItems_of_canonicalItems : ∀ {items : List Document}, canonicalItems items →
    legibleItems items
  | [], _ => rfl
  | d :: rest, h => by
    simp only [canonicalItems, Bool.and_eq_true] at h
    rw [legibleItems, legible_of_canonical h.1, legibleItems_of_canonicalItems h.2, Bool.and_self]

theorem legibleMembers_of_canonicalMembers : ∀ {members : List (String × Document)},
    canonicalMembers members → legibleMembers members
  | [], _ => rfl
  | (_, d) :: rest, h => by
    simp only [canonicalMembers, Bool.and_eq_true] at h
    rw [legibleMembers, legible_of_canonical h.1, legibleMembers_of_canonicalMembers h.2,
      Bool.and_self]

end

end Document

namespace Json

variable {codec : NumberCodec}

/-- Whether what a layout puts between the parts of a document is passed over. -/
structure Spacing.Blank (spacing : Spacing) : Prop where
  line : ∀ level, ∀ c ∈ spacing.line level, isSpace c
  afterColon : ∀ c ∈ spacing.afterColon, isSpace c

theorem Spacing.blank_compact : compact.Blank where
  line := by simp [compact]
  afterColon := by simp [compact]

theorem Spacing.blank_pretty : pretty.Blank where
  line level := by simp [pretty, isSpace]
  afterColon := by simp [pretty, isSpace]

theorem skipSpace_append {blank : List Char} (h : ∀ c ∈ blank, isSpace c) (text : List Char) :
    skipSpace (blank ++ text) = skipSpace text :=
  List.dropWhile_append_of_pos h

theorem skipSpace_cons {c : Char} (h : isSpace c = false) (text : List Char) :
    skipSpace (c :: text) = c :: text := by
  simp [skipSpace, h]

theorem skipSpace_skipSpace (text : List Char) : skipSpace (skipSpace text) = skipSpace text :=
  List.dropWhile_idempotent isSpace text

theorem value_skipSpace (fuel room : Nat) (text : List Char) :
    value codec fuel room (skipSpace text) = value codec fuel room text := by
  cases fuel with
  | zero => rfl
  | succ fuel =>
    rw [value.eq_def, value.eq_def codec (fuel + 1)]
    dsimp only
    rw [skipSpace_skipSpace]

theorem head_of_number {text : List Char} {found : Document × List Char}
    (h : number codec text = some found) : ∃ c more, text = c :: more ∧ (c = '-' ∨ c.isDigit) := by
  cases text with
  | nil => simp [number, unsignedNumber] at h
  | cons c more =>
    refine ⟨c, more, rfl, ?_⟩
    by_contra hc
    rw [not_or] at hc
    rw [number.eq_def] at h
    split at h
    · rename_i hminus
      exact hc.1 (List.cons.inj hminus).1
    · simp [unsignedNumber, List.span_eq_takeWhile_dropWhile, hc.2] at h

theorem isSpace_of_head {c : Char} (h : c = '-' ∨ c.isDigit) : isSpace c = false := by
  rw [← Bool.not_eq_true]
  simp only [isSpace, Bool.or_eq_true, beq_iff_eq]
  rintro (((rfl | rfl) | rfl) | rfl) <;> simp at h

theorem value_of_number {text : List Char} {found : Document × List Char}
    (h : number codec text = some found) (fuel room : Nat) : value codec (fuel + 1) room text = some found := by
  obtain ⟨c, more, rfl, hc⟩ := head_of_number h
  rw [value.eq_def]
  dsimp only
  rw [skipSpace_cons (isSpace_of_head hc)]
  split
  case h_7 => exact h
  all_goals
    rename_i heq
    obtain ⟨rfl, -⟩ := List.cons.inj heq
    simp at hc

theorem exists_numberText (hcodec : codec.Lossless) {n : Number}
    (h : Document.canonicalNumber n) :
    ∃ c more, numberText codec n = c :: more ∧ (c = '-' ∨ c.isDigit) := by
  have hend : Ends [] := by simp [Ends]
  have hread := number_canonical hcodec h hend
  rw [List.append_nil] at hread
  exact head_of_number hread

theorem exists_write (hcodec : codec.Lossless) {d : Document} (h : d.legible) (spacing : Spacing)
    (level : Nat) (rest : List Char) : ∃ c text, write codec spacing level d rest = c :: text ∧
      isSpace c = false ∧ c ≠ ']' := by
  cases d with
  | null => exact ⟨'n', _, by rw [write]; rfl, rfl, by decide⟩
  | unreadable => cases h
  | bool b => cases b <;> exact ⟨_, _, by rw [write]; rfl, rfl, by decide⟩
  | string s => exact ⟨'"', _, by rw [write]; rfl, rfl, by decide⟩
  | number n =>
    obtain ⟨c, more, htext, hc⟩ := exists_numberText hcodec h
    refine ⟨c, more ++ rest, by rw [write, htext, List.cons_append], isSpace_of_head hc, ?_⟩
    rintro rfl
    simp at hc
  | array items => cases items <;> exact ⟨'[', _, by rw [write], rfl, by decide⟩
  | object members => cases members <;> exact ⟨'\x7b', _, by rw [write], rfl, by decide⟩

theorem length_writeString (s : String) (rest : List Char) :
    rest.length < (writeString s rest).length := by
  have hfold : ∀ cs : List Char,
      rest.length < (cs.foldr (fun c rest => escape c ++ rest) ('"' :: rest)).length := by
    intro cs
    induction cs with
    | nil => simp
    | cons c cs ih =>
      rw [List.foldr_cons, List.length_append]
      omega
  rw [writeString, List.length_cons]
  exact Nat.lt_succ_of_lt (hfold s.toList)

mutual

theorem length_write (hcodec : codec.Lossless) (spacing : Spacing) (level : Nat) (rest : List Char) :
    ∀ {d : Document}, d.legible → rest.length < (write codec spacing level d rest).length
  | .null, _ | .bool true, _ | .bool false, _ | .array [], _ | .object [], _ => by
    simp [write] <;> omega
  | .string s, _ => length_writeString s rest
  | .number n, h => by
    obtain ⟨c, more, htext, -⟩ := exists_numberText hcodec h
    simp [write, htext]
  | .array (d :: more), h => by
    simp only [Document.legible, Document.legibleItems, Bool.and_eq_true] at h
    have hitems := length_writeItems hcodec spacing level rest h.2
    have hitem := length_write hcodec spacing (level + 1) (writeItems codec spacing level more rest) h.1
    simp only [write, List.length_cons, List.length_append]
    omega
  | .object ((name, d) :: more), h => by
    simp only [Document.legible, Document.legibleMembers, Bool.and_eq_true] at h
    have hmembers := length_writeMembers hcodec spacing level rest h.2
    have hmember := length_write hcodec spacing (level + 1) (writeMembers codec spacing level more rest) h.1
    have hname := length_writeString name (':' :: (spacing.afterColon ++
      write codec spacing (level + 1) d (writeMembers codec spacing level more rest)))
    simp only [write, List.length_cons, List.length_append] at hname ⊢
    omega

theorem length_writeItems (hcodec : codec.Lossless) (spacing : Spacing) (level : Nat) (rest : List Char) :
    ∀ {items : List Document}, Document.legibleItems items →
      rest.length < (writeItems codec spacing level items rest).length
  | [], _ => by
    simp only [writeItems, List.length_cons, List.length_append]
    omega
  | d :: more, h => by
    simp only [Document.legibleItems, Bool.and_eq_true] at h
    have hitems := length_writeItems hcodec spacing level rest h.2
    have hitem := length_write hcodec spacing (level + 1) (writeItems codec spacing level more rest) h.1
    simp only [writeItems, List.length_cons, List.length_append]
    omega

theorem length_writeMembers (hcodec : codec.Lossless) (spacing : Spacing) (level : Nat) (rest : List Char) :
    ∀ {members : List (String × Document)}, Document.legibleMembers members →
      rest.length < (writeMembers codec spacing level members rest).length
  | [], _ => by
    simp only [writeMembers, List.length_cons, List.length_append]
    omega
  | (name, d) :: more, h => by
    simp only [Document.legibleMembers, Bool.and_eq_true] at h
    have hmembers := length_writeMembers hcodec spacing level rest h.2
    have hmember := length_write hcodec spacing (level + 1) (writeMembers codec spacing level more rest) h.1
    have hname := length_writeString name (':' :: (spacing.afterColon ++
      write codec spacing (level + 1) d (writeMembers codec spacing level more rest)))
    simp only [writeMembers, List.length_cons, List.length_append] at hname ⊢
    omega

end

section Steps

variable {fuel room : Nat} {text rest rest' : List Char} {c : Char}

theorem items_skipSpace (fuel room : Nat) (text : List Char) :
    items codec fuel room (skipSpace text) = items codec fuel room text := by
  cases fuel with
  | zero => rfl
  | succ fuel => rw [items, items, value_skipSpace]

theorem members_skipSpace (fuel room : Nat) (text : List Char) :
    members codec fuel room (skipSpace text) = members codec fuel room text := by
  cases fuel with
  | zero => rfl
  | succ fuel => rw [members, members, skipSpace_skipSpace]

theorem value_of_items {found : List Document} (htext : skipSpace text = c :: rest) (hc : c ≠ ']')
    (hitems : items codec fuel (room - 1) text = some (found, rest')) (hroom : room ≠ 0) :
    value codec (fuel + 1) room ('[' :: text) = some (.array found, rest') := by
  rw [← items_skipSpace, htext] at hitems
  have hopen : skipSpace ('[' :: text) = '[' :: text := skipSpace_cons (by decide) text
  simp [value, hopen, htext, hc, hitems, nested, hroom]

theorem value_of_members {found : List (String × Document)} (htext : skipSpace text = c :: rest)
    (hc : c ≠ '\x7d') (hmembers : members codec fuel (room - 1) text = some (some found, rest'))
    (hroom : room ≠ 0) :
    value codec (fuel + 1) room ('\x7b' :: text) = some (.object found, rest') := by
  rw [← members_skipSpace, htext] at hmembers
  have hopen : skipSpace ('\x7b' :: text) = '\x7b' :: text := skipSpace_cons (by decide) text
  simp [value, hopen, htext, hc, hmembers, nested, hroom]

variable {d : Document}

theorem items_last (hvalue : value codec fuel room text = some (d, rest))
    (hrest : skipSpace rest = ']' :: rest') :
    items codec (fuel + 1) room text = some ([d], rest') := by
  simp [items, hvalue, hrest]

theorem items_more {more : List Document} {rest'' : List Char}
    (hvalue : value codec fuel room text = some (d, rest)) (hrest : skipSpace rest = ',' :: rest')
    (hmore : items codec fuel room rest' = some (more, rest'')) :
    items codec (fuel + 1) room text = some (d :: more, rest'') := by
  simp [items, hvalue, hrest, hmore]

variable {name : String} {text' after after' : List Char}

theorem members_last (hname : stringLiteral text = some (some name, text'))
    (hcolon : skipSpace text' = ':' :: rest) (hvalue : value codec fuel room rest = some (d, rest'))
    (hrest : skipSpace rest' = '\x7d' :: after) :
    members codec (fuel + 1) room ('"' :: text) = some (some [(name, d)], after) := by
  have hopen : skipSpace ('"' :: text) = '"' :: text := skipSpace_cons (by decide) text
  simp [members, hopen, hname, hcolon, hvalue, hrest]

theorem members_more {more : List (String × Document)}
    (hname : stringLiteral text = some (some name, text'))
    (hcolon : skipSpace text' = ':' :: rest) (hvalue : value codec fuel room rest = some (d, rest'))
    (hrest : skipSpace rest' = ',' :: after)
    (hmore : members codec fuel room after = some (some more, after')) :
    members codec (fuel + 1) room ('"' :: text) = some (some ((name, d) :: more), after') := by
  have hopen : skipSpace ('"' :: text) = '"' :: text := skipSpace_cons (by decide) text
  simp [members, hopen, hname, hcolon, hvalue, hrest, hmore]

end Steps

section Reading

variable {spacing : Spacing} {level : Nat} {rest : List Char}

def itemsText (codec : NumberCodec) (spacing : Spacing) (level : Nat) : List Document → List Char → List Char
  | [], rest => spacing.line level ++ ']' :: rest
  | d :: more, rest =>
    spacing.line (level + 1) ++ write codec spacing (level + 1) d (writeItems codec spacing level more rest)

def membersText (codec : NumberCodec) (spacing : Spacing) (level : Nat) :
    List (String × Document) → List Char → List Char
  | [], rest => spacing.line level ++ '\x7d' :: rest
  | (name, d) :: more, rest =>
    spacing.line (level + 1) ++ writeString name (':' :: (spacing.afterColon ++
      write codec spacing (level + 1) d (writeMembers codec spacing level more rest)))

private theorem ends_append {blank : List Char} (hblank : ∀ c ∈ blank, isSpace c)
    (hrest : Ends rest) : Ends (blank ++ rest) := by
  cases blank with
  | nil => exact hrest
  | cons c more =>
    intro c' hc'
    obtain rfl : c = c' := by simpa using hc'
    have hspace := hblank c List.mem_cons_self
    simp only [isSpace, Bool.or_eq_true, beq_iff_eq] at hspace
    rcases hspace with ((rfl | rfl) | rfl) | rfl <;> decide

theorem ends_writeItems (hblank : spacing.Blank) (items : List Document) :
    Ends (writeItems codec spacing level items rest) := by
  cases items with
  | nil => exact ends_append (hblank.line level) (by simp [Ends])
  | cons d more => simp [writeItems, Ends]

theorem ends_writeMembers (hblank : spacing.Blank) (members : List (String × Document)) :
    Ends (writeMembers codec spacing level members rest) := by
  cases members with
  | nil => exact ends_append (hblank.line level) (by simp [Ends])
  | cons e more => simp [writeMembers, Ends]

theorem value_append {blank : List Char} (hblank : ∀ c ∈ blank, isSpace c) (fuel room : Nat)
    (text : List Char) : value codec fuel room (blank ++ text) = value codec fuel room text := by
  rw [← value_skipSpace, skipSpace_append hblank, value_skipSpace]

mutual

/-- A legible document is read back from its text where there is room for it. -/
theorem value_write (hcodec : codec.Lossless) (hblank : spacing.Blank) : ∀ {d : Document} {level fuel room : Nat}
    {rest : List Char}, d.legible → d.depth ≤ room → Ends rest →
      (write codec spacing level d rest).length ≤ fuel + rest.length →
      value codec fuel room (write codec spacing level d rest) = some (d, rest)
  | d, level, 0, room, rest, h, _, _, hfuel => by
    -- The text in front of the rest is not empty, so some fuel is left for it.
    have hlength := length_write hcodec spacing level rest h
    omega
  | .null, level, fuel + 1, room, rest, h, _, _, _ => by
    simp [write, value, skipSpace, isSpace]
  | .bool true, level, fuel + 1, room, rest, h, _, _, _ => by
    simp [write, value, skipSpace, isSpace]
  | .bool false, level, fuel + 1, room, rest, h, _, _, _ => by
    simp [write, value, skipSpace, isSpace]
  | .number n, level, fuel + 1, room, rest, h, _, hrest, _ => by
    rw [write]
    exact value_of_number (number_canonical hcodec h hrest) fuel room
  | .string s, level, fuel + 1, room, rest, h, _, _, _ => by
    obtain ⟨text, htext, hread⟩ := stringLiteral_writeString s rest
    rw [write, htext]
    simp [value, skipSpace, isSpace, hread]
  | .array [], level, fuel + 1, room, rest, h, hroom, _, _ => by
    have hnested : room ≠ 0 := by
      simp only [Document.depth] at hroom
      omega
    simp [write, value, skipSpace, isSpace, nested, hnested]
  | .array (d :: more), level, fuel + 1, room, rest, h, hroom, _, hfuel => by
    obtain ⟨c, text, htext, hspace, hc⟩ := exists_write hcodec
      (by simp only [Document.legible, Document.legibleItems, Bool.and_eq_true] at h; exact h.1)
      spacing (level + 1) (writeItems codec spacing level more rest)
    have hfirst : skipSpace (itemsText codec spacing level (d :: more) rest) = c :: text := by
      rw [itemsText, skipSpace_append (hblank.line _), htext, skipSpace_cons hspace]
    rw [Document.depth] at hroom
    rw [write] at hfuel ⊢
    change ('[' :: itemsText codec spacing level (d :: more) rest).length ≤ _ at hfuel
    rw [List.length_cons] at hfuel
    have hitems : items codec fuel (room - 1) (itemsText codec spacing level (d :: more) rest) =
        some (d :: more, rest) :=
      items_write hcodec hblank (List.cons_ne_nil d more) h (by omega) (by omega)
    exact value_of_items hfirst hc hitems (by omega)
  | .object [], level, fuel + 1, room, rest, h, hroom, _, _ => by
    have hnested : room ≠ 0 := by
      simp only [Document.depth] at hroom
      omega
    simp [write, value, skipSpace, isSpace, nested, hnested]
  | .object ((name, d) :: more), level, fuel + 1, room, rest, h, hroom, _, hfuel => by
    obtain ⟨text, htext, -⟩ := stringLiteral_writeString name (':' :: (spacing.afterColon ++
      write codec spacing (level + 1) d (writeMembers codec spacing level more rest)))
    have hfirst : skipSpace (membersText codec spacing level ((name, d) :: more) rest) = '"' :: text := by
      rw [membersText, skipSpace_append (hblank.line _), htext, skipSpace_cons (by decide)]
    rw [Document.depth] at hroom
    rw [write] at hfuel ⊢
    change ('\x7b' :: membersText codec spacing level ((name, d) :: more) rest).length ≤ _ at hfuel
    rw [List.length_cons] at hfuel
    have hmembers : members codec fuel (room - 1) (membersText codec spacing level ((name, d) :: more) rest) =
        some (some ((name, d) :: more), rest) :=
      members_write hcodec hblank (List.cons_ne_nil (name, d) more) h (by omega) (by omega)
    exact value_of_members hfirst (by decide) hmembers (by omega)

theorem items_write (hcodec : codec.Lossless) (hblank : spacing.Blank) : ∀ {list : List Document} {level fuel room : Nat}
    {rest : List Char}, list ≠ [] → Document.legibleItems list → Document.depthItems list ≤ room →
      (itemsText codec spacing level list rest).length ≤ fuel + rest.length →
      items codec fuel room (itemsText codec spacing level list rest) = some (list, rest)
  | [], level, fuel, room, rest, hsome, _, _, _ => absurd rfl hsome
  | d :: more, level, fuel, room, rest, hsome, h, hroom, hfuel => by
    simp only [Document.legibleItems, Bool.and_eq_true] at h
    rw [Document.depthItems] at hroom
    rw [itemsText, List.length_append] at hfuel
    have hmore := length_writeItems hcodec spacing level rest h.2
    have hitem := length_write hcodec spacing (level + 1) (writeItems codec spacing level more rest) h.1
    obtain ⟨fuel, rfl⟩ : ∃ k, fuel = k + 1 := ⟨fuel - 1, by omega⟩
    have hvalue : value codec fuel room
        (write codec spacing (level + 1) d (writeItems codec spacing level more rest)) = some (d, _) :=
      value_write hcodec hblank h.1 (by omega) (ends_writeItems hblank more) (by omega)
    rw [← value_append (hblank.line (level + 1))] at hvalue
    cases more with
    | nil =>
      apply items_last hvalue
      rw [writeItems, skipSpace_append (hblank.line level), skipSpace_cons (by decide)]
    | cons e more =>
      have hcomma : writeItems codec spacing level (e :: more) rest =
          ',' :: itemsText codec spacing level (e :: more) rest := by rw [writeItems, itemsText]
      rw [hcomma] at hvalue hitem hfuel
      rw [List.length_cons] at hitem
      have hnext : items codec fuel room (itemsText codec spacing level (e :: more) rest) =
          some (e :: more, rest) :=
        items_write hcodec hblank (List.cons_ne_nil e more) h.2 (by omega) (by omega)
      rw [itemsText, hcomma]
      exact items_more hvalue (skipSpace_cons (by decide) _) hnext

theorem members_write (hcodec : codec.Lossless) (hblank : spacing.Blank) : ∀ {list : List (String × Document)}
    {level fuel room : Nat} {rest : List Char}, list ≠ [] → Document.legibleMembers list →
      Document.depthMembers list ≤ room →
      (membersText codec spacing level list rest).length ≤ fuel + rest.length →
      members codec fuel room (membersText codec spacing level list rest) = some (some list, rest)
  | [], level, fuel, room, rest, hsome, _, _, _ => absurd rfl hsome
  | (name, d) :: more, level, fuel, room, rest, hsome, h, hroom, hfuel => by
    simp only [Document.legibleMembers, Bool.and_eq_true] at h
    rw [Document.depthMembers] at hroom
    rw [membersText, List.length_append] at hfuel
    have hmore := length_writeMembers hcodec spacing level rest h.2
    have hmember := length_write hcodec spacing (level + 1) (writeMembers codec spacing level more rest) h.1
    obtain ⟨text, htext, hname⟩ := stringLiteral_writeString name (':' :: (spacing.afterColon ++
      write codec spacing (level + 1) d (writeMembers codec spacing level more rest)))
    have hlength := length_writeString name (':' :: (spacing.afterColon ++
      write codec spacing (level + 1) d (writeMembers codec spacing level more rest)))
    rw [List.length_cons, List.length_append] at hlength
    obtain ⟨fuel, rfl⟩ : ∃ k, fuel = k + 1 := ⟨fuel - 1, by omega⟩
    have hvalue : value codec fuel room
        (write codec spacing (level + 1) d (writeMembers codec spacing level more rest)) = some (d, _) :=
      value_write hcodec hblank h.1 (by omega) (ends_writeMembers hblank more) (by omega)
    rw [← value_append hblank.afterColon] at hvalue
    have hcolon := skipSpace_cons (c := ':') (by decide) (spacing.afterColon ++
      write codec spacing (level + 1) d (writeMembers codec spacing level more rest))
    rw [← members_skipSpace, membersText, skipSpace_append (hblank.line (level + 1)), htext,
      skipSpace_cons (by decide)]
    cases more with
    | nil =>
      apply members_last hname hcolon hvalue
      rw [writeMembers, skipSpace_append (hblank.line level), skipSpace_cons (by decide)]
    | cons e more =>
      obtain ⟨name', e⟩ := e
      have hcomma : writeMembers codec spacing level ((name', e) :: more) rest =
          ',' :: membersText codec spacing level ((name', e) :: more) rest := by
        rw [writeMembers, membersText]
      rw [hcomma] at hname hcolon hvalue hmember hlength hfuel
      rw [List.length_cons] at hmember
      have hnext : members codec fuel room (membersText codec spacing level ((name', e) :: more) rest) =
          some (some ((name', e) :: more), rest) :=
        members_write hcodec hblank (List.cons_ne_nil _ more) h.2 (by omega) (by omega)
      exact members_more hname hcolon hvalue (skipSpace_cons (by decide) _) hnext

end

/-- A legible document that is not nested too deep is read back from its text in any layout. -/
theorem parse?_write (hcodec : codec.Lossless) (hblank : spacing.Blank) {d : Document}
    (h : d.legible) (hdepth : d.depth ≤ maxDepth) :
    parse? codec (write codec spacing 0 d []) = some d := by
  have hread : value codec (2 * (write codec spacing 0 d []).length + 2) maxDepth (write codec spacing 0 d []) =
      some (d, []) :=
    value_write hcodec hblank h hdepth (by simp [Ends]) (by rw [List.length_nil]; omega)
  rw [parse?, hread]
  rfl

end Reading

end Json

theorem Document.ofText?_toText {codec : NumberCodec} (hcodec : codec.Lossless)
    {spacing : Json.Spacing} (hblank : spacing.Blank) {d : Document} (h : d.legible)
    (hdepth : d.depth ≤ Json.maxDepth) : ofText? codec (d.toText codec spacing) = some d := by
  rw [ofText?, toText, String.toList_ofList]
  exact Json.parse?_write hcodec hblank h hdepth

/-- Values of the same compact text are the same, however deep they are. -/
theorem Json.compact_injective : Function.Injective Json.compact := by
  intro v v' h
  have hlegible := Document.legible_of_canonical v.canonical
  have hlegible' := Document.legible_of_canonical v'.canonical
  have htext : write .nearest .compact 0 v.document [] = write .nearest .compact 0 v'.document [] :=
    String.ofList_injective h
  have hread : ∀ {d : Document}, d.legible → ∀ room, d.depth ≤ room →
      value .nearest (write .nearest .compact 0 d []).length room (write .nearest .compact 0 d []) =
        some (d, []) :=
    fun h room hroom => value_write NumberCodec.lossless_nearest Spacing.blank_compact h hroom
      (by simp [Ends]) (by simp)
  have hsame := hread hlegible (max v.document.depth v'.document.depth) (le_max_left _ _)
  rw [htext, hread hlegible' _ (le_max_right _ _)] at hsame
  obtain ⟨d, hd⟩ := v
  obtain ⟨d', hd'⟩ := v'
  obtain rfl : d' = d := by simpa using hsame
  rfl

end BehaviorTree
