import BehaviorTree.Yaml.Scalar

/-!
# Tokens of YAML texts

A text is cut into tokens from left to right. Indentation becomes tokens that open and close
blocks. That a node is a key shows only at the colon behind it, so the place of a node that may be
a key is remembered until then, and the tokens of the key are put in front of it afterwards.

Anchors, tags, directives, block scalars and explicit keys are refused.
-/

namespace BehaviorTree.Yaml

/-- A token of a text. A block ends with `blockEnd`, whichever kind it is. -/
inductive Token where
  | scalar (plain : Bool) (text : String)
  | documentStart | documentEnd
  | sequenceStart | mappingStart | blockEnd | entry
  | flowSequenceStart | flowSequenceEnd | flowMappingStart | flowMappingEnd | comma
  | key | value
deriving DecidableEq

/-- A node that may turn out to be a key: the place where it begins, and the number of its first
token. It is required to be a key if it stands where a block mapping has its keys. -/
structure Candidate extends Mark where
  slot : Nat
  required : Bool

/-- Whether a node is no key any more: its colon must follow on the same line, within 1024 bytes of
its start. -/
def Candidate.isExpired (k : Candidate) (m : Mark) : Bool :=
  k.line < m.line || k.index + 1024 < m.index

/-- A text that is cut into tokens up to some place. -/
structure Tokenizer where
  cursor : Cursor
  /-- The tokens so far, each behind those that were put in front of it. -/
  slots : Array (List Token)
  /-- The candidate for a key in the innermost flow collection, or in the block outside of all. -/
  candidate : Option Candidate
  /-- The candidates around it, one for each flow collection that is still open. -/
  outer : List (Option Candidate)
  /-- Whether a key may begin at the next token. -/
  keyAllowed : Bool
  /-- The columns of the blocks that are still open, the innermost first. -/
  columns : List Nat

/-- Passes over blanks, line ends and comments, and over a byte order mark that begins a line. A tab
counts as a blank where no key may begin. The result says whether a key may begin behind. -/
def toToken (flow : Bool) :
    (comment keyAllowed : Bool) → Mark → List Char → Bool × Cursor
  | _, keyAllowed, m, [] => (keyAllowed, ⟨m, []⟩)
  | _, keyAllowed, m, '\r' :: '\n' :: rest =>
    toToken flow false (keyAllowed || !flow) ((m.next '\r').nextLine '\n') rest
  | comment, keyAllowed, m, c :: rest =>
    if isBreak c then toToken flow false (keyAllowed || !flow) (m.nextLine c) rest
    else if comment ∨ c = ' ' ∨ (c = '\t' ∧ (flow ∨ !keyAllowed)) ∨
        (c = '\uFEFF' ∧ m.column = 0) then
      toToken flow comment keyAllowed (m.next c) rest
    else if c = '#' then toToken flow true keyAllowed (m.next c) rest
    else (keyAllowed, ⟨m, c :: rest⟩)

namespace Tokenizer

def start (text : String) : Tokenizer := ⟨.start text, #[], none, [], true, []⟩

def inFlow (s : Tokenizer) : Bool := !s.outer.isEmpty

/-- The least column that lies inside the innermost block. -/
def margin (s : Tokenizer) : Nat :=
  match s.columns with
  | [] => 0
  | column :: _ => column + 1

/-- Adds a token that takes some characters of the text. -/
def emit (s : Tokenizer) (token : Token) (width : Nat) : Tokenizer :=
  { s with slots := s.slots.push [token], cursor := s.cursor.skip width }

/-- Closes the blocks at the columns that have ended, unless a flow collection is open. -/
def closeBlocks (s : Tokenizer) (ended : Nat → Bool) : Tokenizer :=
  if s.inFlow then s
  else
    { s with
      slots := s.slots ++ ((s.columns.takeWhile ended).map fun _ => [Token.blockEnd]).toArray
      columns := s.columns.dropWhile ended }

/-- Gives up the candidate, unless it is required. -/
def dropCandidate? (s : Tokenizer) : Option Tokenizer :=
  if s.candidate.any (·.required) then none else some { s with candidate := none }

/-- Gives up all candidates that are no keys any more, unless one is required. -/
def dropExpired? (s : Tokenizer) : Option Tokenizer :=
  let expired (k : Candidate) : Bool := k.isExpired s.cursor.toMark
  if (s.candidate :: s.outer).any (·.any fun k => expired k && k.required) then none
  else
    some { s with
      candidate := s.candidate.filter (!expired ·)
      outer := s.outer.map (·.filter (!expired ·)) }

/-- Remembers that the next token begins a node that may be a key. -/
def saveCandidate? (s : Tokenizer) : Option Tokenizer :=
  if s.keyAllowed then
    let required := !s.inFlow && s.columns.head? == some s.cursor.column
    s.dropCandidate?.map fun s =>
      { s with candidate := some ⟨s.cursor.toMark, s.slots.size, required⟩ }
  else some s

def advance? (s : Tokenizer) : Option Tokenizer :=
  let (keyAllowed, cursor) :=
    toToken s.inFlow false s.keyAllowed s.cursor.toMark s.cursor.text
  let s := { s with keyAllowed, cursor }
  s.dropExpired?.map (·.closeBlocks (s.cursor.column < ·))

def marker? (s : Tokenizer) (token : Token) : Option Tokenizer :=
  if s.inFlow then none
  else (s.closeBlocks fun _ => true).dropCandidate?.map fun s =>
    { s.emit token 3 with keyAllowed := false }

def openFlow? (s : Tokenizer) (token : Token) : Option Tokenizer :=
  s.saveCandidate?.map fun s =>
    { s.emit token 1 with
      candidate := none, outer := s.candidate :: s.outer, keyAllowed := true }

def closeFlow? (s : Tokenizer) (token : Token) : Option Tokenizer :=
  match s.outer with
  | [] => none
  | candidate :: outer => some { s.emit token 1 with candidate, outer, keyAllowed := false }

/-- Goes on to the next item of a flow collection. -/
def comma? (s : Tokenizer) : Option Tokenizer :=
  if s.inFlow then some { s.emit .comma 1 with candidate := none, keyAllowed := true } else none

/-- Begins an item of a block sequence, and the sequence itself with the first one. -/
def entry? (s : Tokenizer) : Option Tokenizer :=
  if s.inFlow ∨ !s.keyAllowed then none
  else
    let column := s.cursor.column
    let s :=
      if s.margin ≤ column then
        { s.emit .sequenceStart 0 with columns := column :: s.columns }
      else s
    s.dropCandidate?.map fun s => { s.emit .entry 1 with keyAllowed := true }

/-- Makes the candidate a key, which begins a block mapping if it is the first one there. -/
def value? (s : Tokenizer) : Option Tokenizer :=
  s.candidate.map fun k =>
    let opens := !s.inFlow && s.margin ≤ k.column
    let before := if opens then [.mappingStart, .key] else [.key]
    { s.emit .value 1 with
      slots := (s.slots.modify k.slot (before ++ ·)).push [.value]
      columns := if opens then k.column :: s.columns else s.columns
      candidate := none
      keyAllowed := false }

def quoted? (s : Tokenizer) (read : Nat → Cursor → Option (List Char × Cursor)) : Option Tokenizer := do
  let s ← s.saveCandidate?
  let (text, cursor) ← read s.cursor.text.length (s.cursor.skip 1)
  return { s.emit (.scalar false (String.ofList text)) 0 with cursor, keyAllowed := false }

/-- Reads a plain scalar. A key may begin behind it if its line has ended. -/
def plain? (s : Tokenizer) : Option Tokenizer := do
  let s ← s.saveCandidate?
  let word ← plainWord? s.inFlow s.cursor.text
  let (text, gap, cursor) ← plainScalar s.inFlow s.margin s.cursor.text.length word s.cursor
  return { s.emit (.scalar true (String.ofList text)) 0 with cursor, keyAllowed := gap.crosses }

/-- Reads the next token, which begins with a given character. -/
def token? (s : Tokenizer) (c : Char) (rest : List Char) : Option Tokenizer :=
  if s.cursor.atMarker then s.marker? (if c = '-' then .documentStart else .documentEnd)
  else if c = '[' then s.openFlow? .flowSequenceStart
  else if c = '\x7b' then s.openFlow? .flowMappingStart
  else if c = ']' then s.closeFlow? .flowSequenceEnd
  else if c = '\x7d' then s.closeFlow? .flowMappingEnd
  else if c = ',' then s.comma?
  else if c = '-' ∧ endsWord rest then s.entry?
  else if c = '?' ∧ (s.inFlow ∨ endsWord rest) then none
  else if c = ':' ∧ (s.inFlow ∨ endsWord rest) then s.value?
  else if c = '\'' then s.quoted? singleQuoted
  else if c = '"' then s.quoted? doubleQuoted
  else if c = '\t' ∨ "#&*!|>%@`".toList.contains c then none
  else s.plain?

def finish? : (fuel : Nat) → Tokenizer → Option (Array (List Token))
  | 0, _ => none
  | fuel + 1, s =>
    match s.advance? with
    | none => none
    | some s =>
      match s.cursor.text with
      | [] => (s.closeBlocks fun _ => true).dropCandidate?.map (·.slots)
      | c :: rest =>
        match s.token? c rest with
        | none => none
        | some s => finish? fuel s

end Tokenizer

def tokens? (text : String) : Option (List Token) :=
  if text.toList.all isPrintable then
    (Tokenizer.finish? (text.length + 1) (.start text)).map (·.toList.flatten)
  else none

end BehaviorTree.Yaml
