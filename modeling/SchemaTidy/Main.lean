import SchemaTidy.Command.Run

/-! The program on the files and streams of its process. -/

open SchemaTidy

def faultOf : IO.Error → FileFault
  | .noFileOrDirectory .. => .absent
  | .inappropriateType .. => .notFolder
  | e => .other (toString e)

def tryFile {α : Type} (action : IO α) : IO (Except FileFault α) := do
  try return .ok (← action) catch e => return .error (faultOf e)

def processHost : Host IO where
  read path := tryFile (IO.FS.readFile path)
  write path text := tryFile (IO.FS.writeFile path text)
  print text := IO.print text
  complain text := IO.eprint text

/-- The variables of the process, where the system lists them. -/
def processEnvironment : IO Settings.Environment := do
  match ← processHost.read "/proc/self/environ" with
  | .error _ => return []
  | .ok text =>
    return (Text.splitOn '\x00' text.toList).map fun entry =>
      (String.ofList (entry.takeWhile (· != '=')),
        String.ofList ((entry.dropWhile (· != '=')).drop 1))

def main (arguments : List String) : IO UInt32 := do
  match Command.read arguments with
  | .error fault =>
    IO.eprintln fault.message
    return 2
  | .ok invocation => invocation.run processHost (← processEnvironment)
