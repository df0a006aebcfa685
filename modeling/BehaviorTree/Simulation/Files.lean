import BehaviorTree.Simulation.Configuration
import BehaviorTree.Tree.Codec
import BehaviorTree.World.Basic
import BehaviorTree.Yaml.Parser

/-!
# Files of simulations

Trees are read from JSON files, configurations from YAML files, and worlds from files of either
kind. How files are reached is left open.
-/

namespace BehaviorTree

/-- How the texts of files are reached. -/
structure Files (m : Type → Type) where
  /-- The text of a file that can be read. -/
  read : String → m (Option String)
  /-- Whether there is a file. -/
  has : String → m Bool

/-- What a file describes. -/
inductive FileRole where
  | tree | world | configuration
deriving DecidableEq

/-- Why nothing was loaded from a file. -/
inductive LoadError where
  | unreadable (role : FileRole) (path : String)
  | malformed (role : FileRole) (path : String)
deriving DecidableEq

def FileRole.name : FileRole → String
  | tree => "tree"
  | world => "world"
  | configuration => "config"

def LoadError.message : LoadError → String
  | unreadable role path => s!"Failed to read {role.name} from {path}"
  | malformed role path => s!"Failed to parse {role.name} from {path}"

/-- The ending of a file's name behind its last point, if anything stands before the point. -/
def fileExtension? (path : String) : Option (List Char) :=
  let name := (path.toList.reverse.dropWhile (· = '/')).takeWhile (· ≠ '/')
  let ending := name.takeWhile (· ≠ '.')
  match name.drop ending.length with
  | '.' :: _ :: _ => if name = ['.', '.'] then none else some ending.reverse
  | _ => none

/-- Whether a file's name ends in `json`, in any letter case. -/
def hasJsonName (path : String) : Bool :=
  (fileExtension? path).any fun ending => ending.map Char.toLower = "json".toList

namespace Files

variable {m : Type → Type} [Monad m]

def load {α : Type} (files : Files m) (role : FileRole) (parse? : String → Option α)
    (path : String) : m (Except LoadError α) := do
  match ← files.read path with
  | none => return .error (.unreadable role path)
  | some text =>
    match parse? text with
    | none => return .error (.malformed role path)
    | some a => return .ok a

def loadTree (files : Files m) : String → m (Except LoadError Tree) :=
  files.load .tree (Tree.ofText? .nearest)

/-- Loads a world: from JSON if the file is named so, and from YAML otherwise. -/
def loadWorld (files : Files m) (path : String) : m (Except LoadError World) :=
  let parse? (text : String) : Option World :=
    if hasJsonName path then (Document.ofText? .nearest text).bind World.read
    else (Yaml.parse? text).bind World.read
  files.load .world parse? path

def loadConfiguration (files : Files m) : String → m (Except LoadError Configuration) :=
  files.load .configuration fun text => (Yaml.parse? text).bind Configuration.read

/-- The configuration of a file that is named, or else of the usual file, if there is one. -/
def configuration (files : Files m) (explicit : Option String) (usual : String) :
    m (Except LoadError Configuration) := do
  match explicit with
  | some path => files.loadConfiguration path
  | none =>
    if ← files.has usual then files.loadConfiguration usual else return .ok .standard

end Files

/-- The name of the file in which a configuration is looked for when none is named. -/
def usualConfigurationFile : String := "bt-sim.yaml"

end BehaviorTree
