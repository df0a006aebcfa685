/-!
# Places in YAML texts

Where reading stands in a text. Columns tell blocks apart, and lines and byte offsets limit how far
a key may be from its colon. Five characters end a line; a carriage return directly before a line
feed ends none of its own.
-/

namespace BehaviorTree.Yaml

/-- A place in a text: how many bytes and how many lines come before it, and its column. -/
structure Mark where
  index : Nat
  line : Nat
  column : Nat

/-- The place behind a character that ends no line. -/
def Mark.next (m : Mark) (c : Char) : Mark := ⟨m.index + c.utf8Size, m.line, m.column + 1⟩

/-- The place behind a character that ends a line. -/
def Mark.nextLine (m : Mark) (c : Char) : Mark := ⟨m.index + c.utf8Size, m.line + 1, 0⟩

/-- A place in a text together with what is still to be read. -/
structure Cursor extends Mark where
  text : List Char

def Cursor.start (text : String) : Cursor := ⟨⟨0, 0, 0⟩, text.toList⟩

/-- The place some characters of the same line further on. -/
def Cursor.skip (c : Cursor) : (count : Nat) → Cursor
  | 0 => c
  | count + 1 =>
    match c.text with
    | [] => c
    | ch :: rest => skip ⟨c.toMark.next ch, rest⟩ count

def isBlank (c : Char) : Bool := c == ' ' || c == '\t'

def isBreak (c : Char) : Bool :=
  c == '\n' || c == '\r' || c == '\u0085' || c == '\u2028' || c == '\u2029'

def endsWord : List Char → Bool
  | [] => true
  | c :: _ => isBlank c || isBreak c

/-- The characters that structure flow collections. -/
def isFlowIndicator (c : Char) : Bool :=
  c == ',' || c == '[' || c == ']' || c == '\x7b' || c == '\x7d'

/-- Whether the line that begins here separates documents. -/
def Cursor.atMarker (c : Cursor) : Bool :=
  c.column == 0 && match c.text with
    | '-' :: '-' :: '-' :: rest | '.' :: '.' :: '.' :: rest => endsWord rest
    | _ => false

def isPrintable (c : Char) : Bool :=
  c == '\t' || c == '\n' || c == '\r' || c == '\u0085' || (0x20 ≤ c.toNat && c.toNat ≤ 0x7E) ||
    (0xA0 ≤ c.toNat && c.toNat ≤ 0xFFFD) || 0x10000 ≤ c.toNat

end BehaviorTree.Yaml
