import BehaviorTree.CommandLine.Arguments
import BehaviorTree.Simulation.Basic
import BehaviorTree.Simulation.Files
import BehaviorTree.Text.Blank
import BehaviorTree.Tree.Validity

/-!
# The command line

Runs a tree in a world, checks a tree, or lists the catalog of node types. What a command prints
and how it fails is computed here, for any way of reaching files.
-/

namespace BehaviorTree.CommandLine

/-- Why a command failed. -/
inductive Failure where
  | load (error : LoadError)
  | refused (refusal : Simulation.Refusal)
  | invalidTree (path : String) (fault : Tree.Fault)
  | unknownCategory (name : String)
deriving DecidableEq

def Failure.message : Failure → String
  | load error => error.message
  | refused refusal => refusal.message
  | invalidTree path _ => s!"{path} is not a valid tree"
  | unknownCategory name => s!"unknown category `{name}`"

def Failure.cause? : Failure → Option String
  | invalidTree _ fault => some fault.message
  | _ => none

/-- What is written about a failure: its message and, behind an empty line, its cause, each line of
which is indented. -/
def Failure.text (failure : Failure) : String :=
  let cause := match failure.cause? with
    | some cause =>
      let lines := (Text.splitAt '\n' cause.toList).map fun line => "    " ++ String.ofList line
      "\n\nCaused by:\n" ++ "\n".intercalate lines
    | none => ""
  s!"Error: {failure.message}" ++ cause ++ "\n"

/-- What a command comes to. -/
inductive Outcome where
  | printed (text : String)
  | failed (failure : Failure)
  | misused (misuse : Misuse)

def Outcome.code : Outcome → Nat
  | printed _ => 0
  | failed _ => 1
  | misused _ => 2

/-- A text filled up with blanks to a width. -/
def padded (width : Nat) (text : String) : String :=
  text ++ String.ofList (List.replicate (width - text.length) ' ')

def childrenText (c : Category) : String :=
  match c.maxChildren with
  | some max => if max = c.minChildren then toString max else s!"{c.minChildren}..={max}"
  | none => s!"{c.minChildren}+"

def parameterLine (p : Parameter) : String :=
  let options := match p.type with
    | .choice options _ => " [" ++ "|".intercalate options ++ "]"
    | _ => ""
  s!"    {p.name} = {p.default.compact}{options}"

/-- The lines of a node type: one for itself, and one for each of its parameters. -/
def definitionLines (d : Definition) : List String :=
  s!"{padded 22 d.typeName} {padded 10 d.category.name} children={childrenText d.category}" ::
    d.parameters.map parameterLine

def unlines (lines : List String) : String := String.join (lines.map (· ++ "\n"))

/-- Lists the catalog, or one category of it. -/
def listNodes (category : Option String) : Outcome :=
  match category with
  | none => .printed (unlines (Catalog.definitions.flatMap definitionLines))
  | some name =>
    match Category.ofName? name with
    | some c => .printed (unlines ((Catalog.ofCategory c).flatMap definitionLines))
    | none => .failed (.unknownCategory name)

def report (path : String) (t : Tree) : Outcome :=
  match t.fault? with
  | some fault => .failed (.invalidTree path fault)
  | none =>
    .printed s!"{path}: ok ({t.nodes.length} nodes, {t.connections.length} connections)\n"

variable {m : Type → Type} [Monad m]

def validateTree (files : Files m) (path : String) : m Outcome := do
  match ← files.loadTree path with
  | .error error => return .failed (.load error)
  | .ok t => return report path t

/-- Runs the tree of a file in the world of another one. -/
def runSimulation (files : Files m) (unseeded : Generator) (c : Configuration)
    (tree world : String) : m Outcome := do
  match ← files.loadTree tree with
  | .error error => return .failed (.load error)
  | .ok t =>
    match ← files.loadWorld world with
    | .error error => return .failed (.load error)
    | .ok w =>
      match Simulation.create t w c unseeded with
      | .error refusal => return .failed (.refused refusal)
      | .ok s => return .printed ((s.run c).document.pretty ++ "\n")

/-- Carries out a command. The usual configuration file lies at a given path. -/
def execute (files : Files m) (unseeded : Generator) (usual : String) (i : Invocation) :
    m Outcome := do
  match i.command with
  | .nodes category => return listNodes category
  | .validate tree => validateTree files tree
  | .run tree world agent ticks dt seed untilDone =>
    match ← files.configuration i.configuration usual with
    | .error error => return .failed (.load error)
    | .ok c =>
      let c := { c with
        agent := agent <|> c.agent
        ticks := ticks.getD c.ticks
        deltaTime := dt.getD c.deltaTime
        seed := seed <|> c.seed
        untilDone := c.untilDone || untilDone }
      runSimulation files unseeded c tree world

def run (files : Files m) (unseeded : Generator) (usual : String) (args : List String) :
    m Outcome :=
  match parse args with
  | .error misuse => return .misused misuse
  | .ok i => execute files unseeded usual i

end BehaviorTree.CommandLine
