import BehaviorTree.Json.Codec
import BehaviorTree.Json.Value
import BehaviorTree.Decimal.Numeral
import BehaviorTree.Text.Blank

/-!
# Writing documents

The text of a document, compact or with one item a line. Every function writes its text in front
of a given rest, so that what is written can be read back from the front of any text.
-/

namespace BehaviorTree

namespace Json

/-- The text of a number; one that is not finite is written as `null`. -/
def numberText (codec : NumberCodec) : Number → List Char
  | .integer n => if n < 0 then '-' :: Decimal.digitsOf n.natAbs else Decimal.digitsOf n.natAbs
  | .double x => if x.isFinite then codec.double x else "null".toList
  | .single x => if x.isFinite then codec.single x else "null".toList

/-- A character inside a string: quotes, backslashes and control characters are escaped. -/
def escape (c : Char) : List Char :=
  match c with
  | '"' => ['\\', '"']
  | '\\' => ['\\', '\\']
  | '\x08' => ['\\', 'b']
  | '\x0c' => ['\\', 'f']
  | '\n' => ['\\', 'n']
  | '\r' => ['\\', 'r']
  | '\t' => ['\\', 't']
  | c =>
    if c.toNat < 0x20 then
      ['\\', 'u', '0', '0', Nat.digitChar (c.toNat / 16), Nat.digitChar (c.toNat % 16)]
    else [c]

def writeString (s : String) (rest : List Char) : List Char :=
  '"' :: s.toList.foldr (fun c rest => escape c ++ rest) ('"' :: rest)

/-- The blanks that a layout of documents puts between their parts. -/
structure Spacing where
  /-- What stands before an item or a closing bracket at a nesting level. -/
  line : Nat → List Char
  /-- What stands between a colon and the value behind it. -/
  afterColon : List Char

/-- No blanks at all. -/
def Spacing.compact : Spacing := ⟨fun _ => [], []⟩

/-- One item a line, indented by two blanks a level. -/
def Spacing.pretty : Spacing := ⟨fun level => '\n' :: List.replicate (2 * level) ' ', [' ']⟩

mutual

def write (codec : NumberCodec) (spacing : Spacing) (level : Nat) : Document → List Char → List Char
  | .null, rest | .unreadable, rest => "null".toList ++ rest
  | .bool true, rest => "true".toList ++ rest
  | .bool false, rest => "false".toList ++ rest
  | .number n, rest => numberText codec n ++ rest
  | .string s, rest => writeString s rest
  | .array [], rest => '[' :: ']' :: rest
  | .array (d :: more), rest =>
    '[' :: (spacing.line (level + 1) ++ write codec spacing (level + 1) d
      (writeItems codec spacing level more rest))
  | .object [], rest => '\x7b' :: '\x7d' :: rest
  | .object ((name, d) :: more), rest =>
    '\x7b' :: (spacing.line (level + 1) ++ writeString name (':' :: (spacing.afterColon ++
      write codec spacing (level + 1) d (writeMembers codec spacing level more rest))))

/-- Writes the items of an array behind its first, and closes the array. -/
def writeItems (codec : NumberCodec) (spacing : Spacing) (level : Nat) : List Document → List Char → List Char
  | [], rest => spacing.line level ++ ']' :: rest
  | d :: more, rest =>
    ',' :: (spacing.line (level + 1) ++ write codec spacing (level + 1) d
      (writeItems codec spacing level more rest))

/-- Writes the members of an object behind its first, and closes the object. -/
def writeMembers (codec : NumberCodec) (spacing : Spacing) (level : Nat) :
    List (String × Document) → List Char → List Char
  | [], rest => spacing.line level ++ '\x7d' :: rest
  | (name, d) :: more, rest =>
    ',' :: (spacing.line (level + 1) ++ writeString name (':' :: (spacing.afterColon ++
      write codec spacing (level + 1) d (writeMembers codec spacing level more rest))))

end

end Json

def Document.toText (d : Document) (codec : NumberCodec) (spacing : Json.Spacing) : String :=
  String.ofList (Json.write codec spacing 0 d [])

def Document.compact (d : Document) : String := d.toText .nearest .compact

/-- The text of a document with one item a line. -/
def Document.pretty (d : Document) : String := d.toText .nearest .pretty

namespace Json

def compact (v : Json) : String := v.document.compact

/-- A value read as a number: a number itself, a string that is a numeral once trimmed, and a
truth value as one or zero. -/
def number? (v : Json) : Option Float :=
  match v.document with
  | .number (.integer n) => some (.ofInt n)
  | .number (.double x) => some x
  | .number (.single x) => some (widen x)
  | .string s => (Numeral.ofText? (Text.trim s.toList)).map (·.toDouble)
  | .bool b => some (if b then 1 else 0)
  | _ => none

/-- A value as loose text: a string as it is, anything else as its compact text. -/
def text (v : Json) : String :=
  match v.document with
  | .string s => s
  | d => d.compact

end Json

end BehaviorTree
