/-! What a run of the program asks of its surroundings: to read and write files, and to print.
The surroundings are a parameter, so that a run on a folder in memory is a pure function. -/

namespace SchemaTidy

/-- Why a file cannot be read or written. -/
inductive FileFault where
  | absent
  | isFolder
  | notFolder
  | other (text : String)
deriving DecidableEq, Repr

def FileFault.message : FileFault → String
  | .absent => "No such file or directory (os error 2)"
  | .isFolder => "Is a directory (os error 21)"
  | .notFolder => "Not a directory (os error 20)"
  | .other text => text

structure Host (m : Type → Type) where
  read : String → m (Except FileFault String)
  write : String → String → m (Except FileFault Unit)
  /-- Print to the output, and nothing after the text. -/
  print : String → m Unit
  /-- Print to where errors are reported. -/
  complain : String → m Unit

end SchemaTidy
