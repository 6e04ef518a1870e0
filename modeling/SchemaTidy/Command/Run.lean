import SchemaTidy.Command.Arguments
import SchemaTidy.Settings.Load
import SchemaTidy.Engine
import SchemaTidy.Text.Quoted

/-! Running a command: the policy is loaded, the file read, and what was found is printed or
written. Renames and repairs of a text that is printed are reported as errors are, so that the
text can be passed on. -/

namespace SchemaTidy.Command
open Settings (Environment)

variable {m : Type → Type} [Monad m]

/-- A run ends early with a message. -/
abbrev Run (m : Type → Type) := ExceptT String m

def say (host : Host m) (line : String) : Run m Unit := host.print (line ++ "\n")

def report (host : Host m) (line : String) : Run m Unit := host.complain (line ++ "\n")

def readFile (host : Host m) (path : String) : Run m String := do
  match ← host.read path with
  | .ok text => pure text
  | .error fault => throw s!"reading {path}: {fault.message}"

def writeFile (host : Host m) (path text : String) : Run m Unit := do
  match ← host.write path text with
  | .ok () => pure ()
  | .error fault => throw s!"writing {path}: {fault.message}"

/-- A text goes to the output if no file is named for it. -/
def put (host : Host m) (output : Option String) (text : String) : Run m Unit :=
  match output with
  | some path => writeFile host path text
  | none => host.print text

def sayFindings (host : Host m) (found : List Finding) : Run m Unit :=
  found.forM fun f => say host s!"   └─ {f.message}"

def validate (host : Host m) (policy : Policy) (file text : String) : Run m Bool := do
  let found := policy.validate text
  if found.isEmpty then say host s!"✅ {file} - valid"
  else
    say host s!"❌ {file} - {found.length} error(s)"
    sayFindings host found
  return found.isEmpty

def repair (host : Host m) (policy : Policy) (output : Option String) (text : String) :
    Run m Bool := do
  let outcome := policy.repairText text
  outcome.log.forM fun entry => report host s!"🔧 {entry.description}"
  put host output outcome.text
  return (policy.validate outcome.text).isEmpty

def dedupe (host : Host m) (policy : Policy) (output : Option String) (text : String) :
    Run m Unit := do
  let outcome := policy.dedupe text
  outcome.renames.forM fun r => report host s!"🔧 line {r.line}: '{r.name}' -> '{r.renamed}'"
  put host output outcome.text

def check (host : Host m) (policy : Policy) (output : Option String) (diff : Bool)
    (file text : String) : Run m Bool := do
  let outcome := policy.process text
  say host s!"🔍 {file}"
  outcome.renames.forM fun r =>
    say host s!"  renamed '{r.name}' -> '{r.renamed}' (line {r.line})"
  outcome.repairs.forM fun entry => say host s!"  {entry.description}"
  if outcome.isValid then say host "✅ valid"
  else
    say host s!"❌ {outcome.final.length} error(s) remain"
    sayFindings host outcome.final
  if diff && outcome.changed then
    say host ""
    host.print outcome.difference
  if let some path := output then
    writeFile host path outcome.text
    say host s!"✅ Written to {String.ofList (Text.quoted path.toList)}"
  return outcome.isValid

def loadPolicy (host : Host m) (environment : Environment) (config : Option String) :
    Run m Policy := do
  match ← (Settings.loadFrom host environment config : m _) with
  | .ok policy => pure policy
  | .error fault => throw s!"loading configuration: {fault.message}: {fault.cause}"

/-- Whether the document is valid in the end. -/
def Invocation.act (i : Invocation) (host : Host m) (environment : Environment) : Run m Bool := do
  let policy ← loadPolicy host environment i.config
  let text ← readFile host i.file
  match i.action with
  | .validate => validate host policy i.file text
  | .report =>
    let found := policy.report text
    say host found.json
    return found.toOption.isSome
  | .repair output => repair host policy output text
  | .dedupe output =>
    dedupe host policy output text
    return true
  | .check output diff => check host policy output diff i.file text

/-- Run a command, and give the status that it ends with. -/
def Invocation.run (i : Invocation) (host : Host m) (environment : Environment) : m UInt32 := do
  match ← (i.act host environment).run with
  | .ok true => return 0
  | .ok false => return 1
  | .error message =>
    host.complain s!"Error: {message}\n"
    return 2

end SchemaTidy.Command
