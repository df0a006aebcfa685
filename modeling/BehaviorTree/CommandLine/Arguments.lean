import BehaviorTree.Decimal.Numeral

/-!
# Arguments

The grammar of the arguments: options by long and short names, values attached or following,
short options run together, a double hyphen behind which no options stand, and options that may
stand before or behind the name of the command. Every option is given once at most in each of the
two places; of both places the one behind the command counts.
-/

namespace BehaviorTree.CommandLine

/-- An option: its long and short names, and whether it has a value. -/
structure Flag where
  long : String
  short : Option Char
  hasValue : Bool

/-- The options that were given, by long name, with their values. -/
abbrev Given := List (String × String)

/-- Arguments that do not follow the grammar. -/
inductive Misuse where
  | unknownFlag (name : String)
  | repeatedFlag (name : String)
  | missingValue (name : String)
  | unexpectedValue (name : String)
  | unexpectedArgument (text : String)
  | invalidValue (name value : String)
  | missingFlag (name : String)
  | missingCommand
deriving DecidableEq

def Misuse.message : Misuse → String
  | unknownFlag name => s!"unexpected argument '{name}' found"
  | repeatedFlag name => s!"the argument '--{name}' cannot be used multiple times"
  | missingValue name => s!"a value is required for '--{name}' but none was supplied"
  | unexpectedValue name => s!"unexpected value for '--{name}' found; no more were expected"
  | unexpectedArgument text => s!"unexpected argument '{text}' found"
  | invalidValue name value => s!"invalid value '{value}' for '--{name}'"
  | missingFlag name => s!"the following required arguments were not provided: --{name}"
  | missingCommand => "a command is required: run, validate or nodes"

/-- Adds an option that must not have been given before. -/
def give (given : Given) (name value : String) : Except Misuse Given :=
  if given.any (·.1 = name) then .error (.repeatedFlag name) else .ok (given ++ [(name, value)])

/-- The value that follows an option: any argument but one with a hyphen in front, unless that is
all of it. -/
def takeValue (name : String) : List String → Except Misuse (String × List String)
  | [] => .error (.missingValue name)
  | arg :: rest =>
    match arg.toList with
    | '-' :: _ :: _ => .error (.missingValue name)
    | _ => .ok (arg, rest)

/-- Reads short options run together. The first one with a value takes the rest as its value, or
asks for the next argument. -/
def shortFlags (flags : List Flag) (given : Given) :
    List Char → Except Misuse (Given × Option String)
  | [] => .ok (given, none)
  | c :: rest =>
    match flags.find? (·.short = some c) with
    | none => .error (.unknownFlag ("-" ++ String.singleton c))
    | some flag =>
      if flag.hasValue then
        match rest with
        | [] => .ok (given, some flag.long)
        | '=' :: value | value => do return (← give given flag.long (String.ofList value), none)
      else do shortFlags flags (← give given flag.long "") rest

/-- Reads a long option, of which the value may be attached behind an equals sign. -/
def longFlag (flags : List Flag) (given : Given) (text : List Char) :
    Except Misuse (Given × Option String) :=
  let name := String.ofList (text.takeWhile (· ≠ '='))
  let attached := match text.dropWhile (· ≠ '=') with
    | '=' :: value => some (String.ofList value)
    | _ => none
  match flags.find? (·.long = name), attached with
  | none, _ => .error (.unknownFlag ("--" ++ name))
  | some flag, none =>
    if flag.hasValue then .ok (given, some name) else do return (← give given name "", none)
  | some flag, some value =>
    if flag.hasValue then do return (← give given name value, none)
    else .error (.unexpectedValue name)

/-- Reads options up to the name of a command or the end of the arguments. -/
def readFlags (flags : List Flag) (commands : List String) :
    (fuel : Nat) → Given → List String → Except Misuse (Given × List String)
  | 0, given, args => .ok (given, args)
  | _, given, [] => .ok (given, [])
  | fuel + 1, given, arg :: rest =>
    if commands.contains arg then .ok (given, arg :: rest)
    else
      let read := match arg.toList with
        | ['-', '-'] => none
        | '-' :: '-' :: text => some (longFlag flags given text)
        | '-' :: text@(_ :: _) => some (shortFlags flags given text)
        | _ => some (.error (.unexpectedArgument arg))
      match read with
      | none =>
        match rest with
        | [] => .ok (given, [])
        | extra :: _ => .error (.unexpectedArgument extra)
      | some (.error misuse) => .error misuse
      | some (.ok (given, none)) => readFlags flags commands fuel given rest
      | some (.ok (given, some name)) => do
        let (value, rest) ← takeValue name rest
        readFlags flags commands fuel (← give given name value) rest

/-- What is asked for. -/
inductive Command where
  | run (tree world : String) (agent : Option String) (ticks : Option Nat) (dt : Option Float32)
      (seed : Option UInt64) (untilDone : Bool)
  | validate (tree : String)
  | nodes (category : Option String)

/-- A command, and the options that go with every command. -/
structure Invocation where
  configuration : Option String
  verbose : Bool
  jsonLogs : Bool
  command : Command

def commonFlags : List Flag :=
  [⟨"config", some 'c', true⟩, ⟨"verbose", some 'v', false⟩, ⟨"json-logs", none, false⟩]

def flagsOf? : String → Option (List Flag)
  | "run" => some
      [⟨"tree", none, true⟩, ⟨"world", none, true⟩, ⟨"agent", none, true⟩, ⟨"ticks", none, true⟩,
        ⟨"dt", none, true⟩, ⟨"seed", none, true⟩, ⟨"until-done", none, false⟩]
  | "validate" => some [⟨"tree", none, true⟩]
  | "nodes" => some [⟨"category", none, true⟩]
  | _ => none

def commandNames : List String := ["run", "validate", "nodes"]

/-- The whole number of a value: digits, with a plus sign in front or not, that fit 64 bits. -/
def wholeNumber? (value : String) : Option Nat :=
  let digits := match value.toList with
    | '+' :: rest => rest
    | cs => cs
  if digits.isEmpty ∨ ¬ digits.all Char.isDigit then none
  else some (Decimal.naturalOf digits) |>.filter (· < UInt64.size)

/-- The value of an option, read if it was given. -/
def valueOf {α : Type} (given : Given) (name : String) (read? : String → Option α) :
    Except Misuse (Option α) :=
  match given.lookup name with
  | none => .ok none
  | some value =>
    match read? value with
    | some a => .ok (some a)
    | none => .error (.invalidValue name value)

/-- A path, which is not empty. -/
def path? (value : String) : Option String := if value.isEmpty then none else some value

def requiredPath (given : Given) (name : String) : Except Misuse String := do
  match ← valueOf given name path? with
  | some path => return path
  | none => throw (.missingFlag name)

/-- The command of a name with the options given for it. -/
def commandOf (name : String) (given : Given) : Except Misuse Command :=
  match name with
  | "run" => do
    return .run (← requiredPath given "tree") (← requiredPath given "world")
      (← valueOf given "agent" some) (← valueOf given "ticks" wholeNumber?)
      (← valueOf given "dt" single?)
      (← valueOf given "seed" fun value => (wholeNumber? value).map UInt64.ofNat)
      (given.any (·.1 = "until-done"))
  | "validate" => do return .validate (← requiredPath given "tree")
  | _ => do return .nodes (← valueOf given "category" some)

def parse (args : List String) : Except Misuse Invocation := do
  let (before, rest) ← readFlags commonFlags commandNames (args.length + 1) [] args
  match rest with
  | [] => throw .missingCommand
  | name :: rest =>
    match flagsOf? name with
    | none => throw .missingCommand
    | some own =>
      let (behind, _) ← readFlags (commonFlags ++ own) [] (rest.length + 1) [] rest
      let command ← commandOf name behind
      let early ← valueOf before "config" path?
      let late ← valueOf behind "config" path?
      return {
        configuration := late <|> early
        verbose := (before ++ behind).any (·.1 = "verbose")
        jsonLogs := (before ++ behind).any (·.1 = "json-logs")
        command := command }

end BehaviorTree.CommandLine
