import SchemaTidy.Settings.Layer
import SchemaTidy.Settings.Policy
import SchemaTidy.Toml.Read
import SchemaTidy.Toml.Write
import SchemaTidy.Host

/-! Loading and saving a policy. The layers are, from the weakest on, three files of the working
folder, one of the user, one that is asked for, and the environment. Of these files only the one
asked for has to be there.

Files are TOML documents. The readers of other formats (JSON, YAML, INI, RON, JSON5) are left out:
a file with another ending counts as one of no registered format, and a name without an ending is
completed by `.toml` alone. -/

namespace SchemaTidy.Settings
open Toml (Table)

/-- Why no policy could be loaded. -/
inductive Fault where
  | absent (path : String)
  | unknownFormat (path : String)
  | unreadable (path : String)
  | unfit
deriving DecidableEq, Repr

def Fault.cause : Fault → String
  | .absent path => s!"configuration file \"{path}\" not found"
  | .unknownFormat path => s!"configuration file \"{path}\" is not of a registered file format"
  | .unreadable path => s!"configuration file \"{path}\" is not a TOML document"
  | .unfit => "a setting has a value that does not fit"

def Fault.message (fault : Fault) : String := s!"Configuration error: {fault.cause}"

/-- The texts of the files that there are, by their paths. -/
abbrev Files := String → Option String

def workingFiles : List String :=
  ["schema-doctor.toml", ".schema-doctor.toml", "config/schema-doctor.toml"]

/-- Where the programs of a user keep their settings: a folder that is named from the root on, or
else one in the user's home. The home that the system has on record for the user is left out. -/
def userFolder? (environment : Environment) : Option String :=
  let named := (environment.lookup "XDG_CONFIG_HOME").filter (·.toList.head? == some '/')
  let home := (environment.lookup "HOME").filter (· != "")
  named.or (home.map (· ++ "/.config"))

def userFile? (environment : Environment) : Option String :=
  (userFolder? environment).map (· ++ "/schema-doctor/schema-doctor.toml")

/-- The name of a file without the ending of its format. -/
def withEnding (path : String) : String := path ++ ".toml"

/-- Whether the name of a file ends in the ending of its format, with something before it. -/
def hasEnding (path : String) : Bool :=
  let ending := ".toml".toList.reverse
  let reversed := path.toList.reverse
  match reversed.drop ending.length with
  | c :: _ => ending.isPrefixOf reversed && c != '/'
  | [] => false

/-- The text of a settings file, whose name may be given without its ending. -/
def find (files : Files) (path : String) : Except Fault String :=
  match files path, files (withEnding path) with
  | some text, _ => if hasEnding path then .ok text else .error (.unknownFormat path)
  | none, some text => .ok text
  | none, none => .error (.absent path)

def readLayer (path text : String) : Except Fault Table :=
  match Toml.read text with
  | some table => .ok table
  | none => .error (.unreadable path)

def requiredLayer (files : Files) (path : String) : Except Fault Table := do
  readLayer path (← find files path)

/-- A file that is not found is as good as an empty one. -/
def optionalLayer (files : Files) (path : String) : Except Fault Table :=
  match find files path with
  | .ok text => readLayer path text
  | .error _ => .ok []

/-- The file of the user counts only under its full name. -/
def userLayer (files : Files) (environment : Environment) : Except Fault Table :=
  match userFile? environment with
  | some path => ((files path).map (readLayer path)).getD (.ok [])
  | none => .ok []

def layers (files : Files) (environment : Environment) (path : Option String) :
    Except Fault (List Table) := do
  let working ← workingFiles.mapM (optionalLayer files)
  let user ← userLayer files environment
  let asked ← path.toList.mapM (requiredLayer files)
  return working ++ [user] ++ asked ++ [environment.layer]

def load (files : Files) (environment : Environment) (path : Option String) :
    Except Fault Policy := do
  match policy? (ofLayers (← layers files environment path)) with
  | some policy => .ok policy
  | none => .error .unfit

/-- All paths at which a file may count. -/
def places (environment : Environment) (path : Option String) : List String :=
  let named := workingFiles ++ path.toList
  named ++ named.map withEnding ++ (userFile? environment).toList

section Host

variable {m : Type → Type} [Monad m]

/-- Load a policy from the files of the surroundings. -/
def loadFrom (host : Host m) (environment : Environment) (path : Option String) :
    m (Except Fault Policy) := do
  let texts ← (places environment path).mapM fun place => do
    return (place, (← host.read place).toOption)
  return load (fun path => (texts.lookup path).join) environment path

/-- Why a policy could not be saved. -/
inductive SaveFault where
  | unwritable
  | file (fault : FileFault)
deriving DecidableEq, Repr

def SaveFault.message : SaveFault → String
  | .unwritable => "TOML error: a number has more than 63 bits"
  | .file fault => s!"IO error: {fault.message}"

/-- Save all settings of a policy. Numbers of more than 63 bits cannot be written. -/
def save (host : Host m) (policy : Policy) (path : String) : m (Except SaveFault Unit) := do
  match Toml.write? (ofPolicy policy) with
  | none => return .error .unwritable
  | some text => return (← host.write path text).mapError .file

end Host

end SchemaTidy.Settings
