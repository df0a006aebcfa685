import BehaviorTree.Yaml.Token

/-!
# Reading YAML texts

Nodes from tokens. A text holds at most one document. Collections nest without bound, but only the
outermost 128 levels can be read.
-/

namespace BehaviorTree.Yaml

/-- How many collections can be read that lie in one another. -/
def readableDepth : Nat := 128

/-- A collection where `room` more levels can be read. -/
def Node.within (room : Nat) (node : Node) : Node := if room = 0 then .unreadable else node

/-- Whether a token begins a node. In a block mapping the items of a sequence may stand at the
column of the keys, and then nothing announces the sequence. -/
def Token.beginsNode (inMapping : Bool) : Token → Bool
  | .scalar _ _ | .sequenceStart | .mappingStart | .flowSequenceStart | .flowMappingStart => true
  | .entry => inMapping
  | _ => false

mutual

def node? : (fuel room : Nat) → (inMapping : Bool) → List Token → Option (Node × List Token)
  | 0, _, _, _ => none
  | fuel + 1, room, inMapping, tokens =>
    match tokens with
    | .scalar plain text :: rest => some (.scalar plain text, rest)
    | .flowSequenceStart :: rest =>
      (flowItems? fuel (room - 1) rest).map fun (items, rest) =>
        (.within room (.sequence items), rest)
    | .flowMappingStart :: rest =>
      (flowEntries? fuel (room - 1) rest).map fun (entries, rest) =>
        (.within room (.mapping entries), rest)
    | .sequenceStart :: rest =>
      match blockItems? fuel (room - 1) rest with
      | some (items, .blockEnd :: rest) => some (.within room (.sequence items), rest)
      | _ => none
    | .mappingStart :: rest =>
      match blockEntries? fuel (room - 1) rest with
      | some (entries, .blockEnd :: rest) => some (.within room (.mapping entries), rest)
      | _ => none
    | .entry :: _ =>
      if inMapping then
        (blockItems? fuel (room - 1) tokens).map fun (items, rest) =>
          (.within room (.sequence items), rest)
      else none
    | _ => none

/-- A node that may be left out. -/
def optionalNode? :
    (fuel room : Nat) → (inMapping : Bool) → List Token → Option (Node × List Token)
  | 0, _, _, _ => none
  | fuel + 1, room, inMapping, tokens =>
    if tokens.head?.any (·.beginsNode inMapping) then node? fuel room inMapping tokens
    else some (.nothing, tokens)

def blockItems? : (fuel room : Nat) → List Token → Option (List Node × List Token)
  | 0, _, _ => none
  | fuel + 1, room, tokens =>
    match tokens with
    | .entry :: rest =>
      match optionalNode? fuel room false rest with
      | some (item, rest) =>
        (blockItems? fuel room rest).map fun (items, rest) => (item :: items, rest)
      | none => none
    | _ => some ([], tokens)

def pair? :
    (fuel room : Nat) → (inMapping : Bool) → List Token → Option ((Node × Node) × List Token)
  | 0, _, _, _ => none
  | fuel + 1, room, inMapping, tokens =>
    match node? fuel room false tokens with
    | some (key, .value :: rest) =>
      (optionalNode? fuel room inMapping rest).map fun (value, rest) => ((key, value), rest)
    | _ => none

def blockEntries? : (fuel room : Nat) → List Token → Option (List (Node × Node) × List Token)
  | 0, _, _ => none
  | fuel + 1, room, tokens =>
    match tokens with
    | .key :: rest =>
      match pair? fuel room true rest with
      | some (pair, rest) =>
        (blockEntries? fuel room rest).map fun (pairs, rest) => (pair :: pairs, rest)
      | none => none
    | _ => some ([], tokens)

/-- The items of a flow sequence; an item with a colon is a mapping of one entry. -/
def flowItems? : (fuel room : Nat) → List Token → Option (List Node × List Token)
  | 0, _, _ => none
  | _, _, .flowSequenceEnd :: rest => some ([], rest)
  | fuel + 1, room, tokens =>
    let item? : Option (Node × List Token) :=
      match tokens with
      | .key :: rest =>
        (pair? fuel (room - 1) false rest).map fun (pair, rest) =>
          (.within room (.mapping [pair]), rest)
      | _ => node? fuel room false tokens
    match item? with
    | some (item, .flowSequenceEnd :: rest) => some ([item], rest)
    | some (item, .comma :: rest) =>
      (flowItems? fuel room rest).map fun (items, rest) => (item :: items, rest)
    | _ => none

/-- The entries of a flow mapping; an entry without a colon has no value. -/
def flowEntries? : (fuel room : Nat) → List Token → Option (List (Node × Node) × List Token)
  | 0, _, _ => none
  | _, _, .flowMappingEnd :: rest => some ([], rest)
  | fuel + 1, room, tokens =>
    let found? : Option ((Node × Node) × List Token) :=
      match tokens with
      | .key :: rest => pair? fuel room false rest
      | _ => (node? fuel room false tokens).map fun (key, rest) => ((key, .nothing), rest)
    match found? with
    | some (pair, .flowMappingEnd :: rest) => some ([pair], rest)
    | some (pair, .comma :: rest) =>
      (flowEntries? fuel room rest).map fun (pairs, rest) => (pair :: pairs, rest)
    | _ => none

end

/-- The node that the tokens of a whole text stand for: that of the only document, if any, which
may be closed more than once. -/
def Node.ofTokens? (tokens : List Token) : Option Node :=
  let fuel := 3 * tokens.length + 3
  let found : Option (Node × List Token) :=
    match tokens with
    | [] => some (.nothing, [])
    | .documentStart :: rest => optionalNode? fuel readableDepth false rest
    | _ => node? fuel readableDepth false tokens
  match found with
  | some (node, rest) => if rest.all (· = .documentEnd) then some node else none
  | none => none

def parse? (text : String) : Option Node := (tokens? text).bind Node.ofTokens?

end BehaviorTree.Yaml
