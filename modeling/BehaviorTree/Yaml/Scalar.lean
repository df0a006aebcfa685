import BehaviorTree.Yaml.Cursor
import BehaviorTree.Yaml.Node

/-!
# Scalars of YAML texts

What plain and quoted scalars stand for, and where they end. A scalar is a run of words; the gap
between two words is kept as it is on one line, and folded if lines end in it.
-/

namespace BehaviorTree.Yaml

/-- What stands between two words of a scalar: the blanks of the line on which it begins, the line
ends, and the columns of the tabs of further lines. -/
structure Gap where
  blanks : List Char
  breaks : List Char
  tabs : List Nat

namespace Gap

/-- A line end as it is kept in a scalar: only the two separators of Unicode stay themselves. -/
def lineEnd (c : Char) : Char := if c = '\u2028' ∨ c = '\u2029' then c else '\n'

/-- The gap that begins here and the place behind it. Once a line has ended, blanks count no
longer. -/
def read (crossed : Bool) (m : Mark) : List Char → Gap × Cursor
  | [] => (⟨[], [], []⟩, ⟨m, []⟩)
  | '\r' :: '\n' :: rest =>
    let (gap, behind) := read true ((m.next '\r').nextLine '\n') rest
    (⟨gap.blanks, '\n' :: gap.breaks, gap.tabs⟩, behind)
  | c :: rest =>
    if isBreak c then
      let (gap, behind) := read true (m.nextLine c) rest
      (⟨gap.blanks, lineEnd c :: gap.breaks, gap.tabs⟩, behind)
    else if isBlank c then
      let (gap, behind) := read crossed (m.next c) rest
      if !crossed then (⟨c :: gap.blanks, gap.breaks, gap.tabs⟩, behind)
      else if c = '\t' then (⟨gap.blanks, gap.breaks, m.column :: gap.tabs⟩, behind)
      else (gap, behind)
    else (⟨[], [], []⟩, ⟨m, c :: rest⟩)

def crosses (gap : Gap) : Bool := !gap.breaks.isEmpty

/-- What a gap stands for: the first line end is a blank if no other follows, and is dropped before
others, unless it is a separator. -/
def fold (gap : Gap) : List Char :=
  match gap.breaks with
  | [] => gap.blanks
  | ['\n'] => [' ']
  | '\n' :: more => more
  | breaks => breaks

end Gap

def Cursor.gap (c : Cursor) : Gap × Cursor := Gap.read false c.toMark c.text

/-- The word of a plain scalar that begins here. A colon ends it before a blank; in a flow
collection a structuring character ends it, and a colon before one is an error. -/
def plainWord? (flow : Bool) : List Char → Option (List Char)
  | [] => some []
  | c :: rest =>
    if isBlank c ∨ isBreak c ∨ (c = ':' ∧ endsWord rest) ∨ (flow ∧ isFlowIndicator c) then some []
    else if flow ∧ c = ':' ∧ rest.head?.any (fun next => isFlowIndicator next || next == '?') then
      none
    else (plainWord? flow rest).map (c :: ·)

/-- A plain scalar from a word on, the gap behind its last word, and the place behind that gap. On
further lines a tab must stand behind the margin; outside of flow collections so must a word. -/
def plainScalar (flow : Bool) (margin : Nat) :
    (fuel : Nat) → (word : List Char) → Cursor → Option (List Char × Gap × Cursor)
  | 0, _, _ => none
  | fuel + 1, word, c =>
    let (gap, next) := (c.skip word.length).gap
    if gap.tabs.any (· < margin) then none
    else if (gap.blanks.isEmpty ∧ !gap.crosses) ∨ (!flow ∧ next.column < margin) ∨ next.atMarker ∨
        next.text.head? = some '#' then
      some (word, gap, next)
    else
      match plainWord? flow next.text with
      | none => none
      | some [] => some (word, gap, next)
      | some more =>
        (plainScalar flow margin fuel more next).map fun (words, last) =>
          (word ++ gap.fold ++ words, last)

/-- A single-quoted scalar behind its opening quote, and the place behind it. A quote is written
twice. -/
def singleQuoted : (fuel : Nat) → Cursor → Option (List Char × Cursor)
  | 0, _ => none
  | fuel + 1, c =>
    match c.text with
    | [] => none
    | '\'' :: '\'' :: _ => (singleQuoted fuel (c.skip 2)).map fun (more, c) => ('\'' :: more, c)
    | '\'' :: _ => some ([], c.skip 1)
    | ch :: _ =>
      if isBlank ch ∨ isBreak ch then
        let (gap, next) := c.gap
        if next.atMarker then none
        else (singleQuoted fuel next).map fun (more, c) => (gap.fold ++ more, c)
      else (singleQuoted fuel (c.skip 1)).map fun (more, c) => (ch :: more, c)

def escaped? : Char → Option Char
  | '0' => some '\x00'
  | 'a' => some '\x07'
  | 'b' => some '\x08'
  | 't' | '\t' => some '\t'
  | 'n' => some '\n'
  | 'v' => some '\x0b'
  | 'f' => some '\x0c'
  | 'r' => some '\r'
  | 'e' => some '\x1b'
  | ' ' => some ' '
  | '"' => some '"'
  | '/' => some '/'
  | '\\' => some '\\'
  | 'N' => some '\u0085'
  | '_' => some '\u00a0'
  | 'L' => some '\u2028'
  | 'P' => some '\u2029'
  | _ => none

def escapeWidth? : Char → Option Nat
  | 'x' => some 2
  | 'u' => some 4
  | 'U' => some 8
  | _ => none

/-- The character of a hexadecimal escape, which is never half of a surrogate pair. -/
def hexEscape? (width : Nat) (text : List Char) : Option Char :=
  if text.length < width then none
  else (digits? 16 (text.take width)).bind fun n =>
    if n < 0xD800 ∨ (0xE000 ≤ n ∧ n ≤ 0x10FFFF) then some (.ofNat n) else none

/-- The character of an escape behind its backslash, and how many characters it takes. -/
def escape? : List Char → Option (Char × Nat)
  | [] => none
  | c :: rest =>
    match escapeWidth? c with
    | some width => (hexEscape? width rest).map (·, width + 1)
    | none => (escaped? c).map (·, 1)

/-- A double-quoted scalar behind its opening quote, and the place behind it. A line end behind a
backslash is passed over, together with the blanks that follow; further line ends are kept. -/
def doubleQuoted : (fuel : Nat) → Cursor → Option (List Char × Cursor)
  | 0, _ => none
  | fuel + 1, c =>
    match c.text with
    | [] => none
    | '"' :: _ => some ([], c.skip 1)
    | '\\' :: rest =>
      if rest.head?.any isBreak then
        let (gap, next) := (c.skip 1).gap
        if next.atMarker then none
        else (doubleQuoted fuel next).map fun (more, c) => (gap.breaks.drop 1 ++ more, c)
      else
        match escape? rest with
        | none => none
        | some (e, width) =>
          (doubleQuoted fuel (c.skip (width + 1))).map fun (more, c) => (e :: more, c)
    | ch :: _ =>
      if isBlank ch ∨ isBreak ch then
        let (gap, next) := c.gap
        if next.atMarker then none
        else (doubleQuoted fuel next).map fun (more, c) => (gap.fold ++ more, c)
      else (doubleQuoted fuel (c.skip 1)).map fun (more, c) => (ch :: more, c)

end BehaviorTree.Yaml
