import SchemaTidy.Host
import SchemaTidy.Text.Search

/-! Files below one folder, kept in memory. A path is a list of names; all folders on the way to a
file are there with it. -/

namespace SchemaTidy

abbrev Path := List String

structure Folder where
  files : List (Path × String)
deriving DecidableEq, Repr

namespace Folder

def file? (f : Folder) (path : Path) : Option String := (f.files.find? (·.1 == path)).map (·.2)

/-- Set the text of a file. -/
def put (f : Folder) (path : Path) (text : String) : Folder :=
  ⟨f.files.filter (·.1 != path) ++ [(path, text)]⟩

theorem file?_put_self (f : Folder) (path : Path) (text : String) :
    (f.put path text).file? path = some text := by
  have h : (f.files.filter (·.1 != path)).find? (·.1 == path) = none := by
    rw [List.find?_eq_none]
    intro entry hmem
    simpa using (List.mem_filter.1 hmem).2
  simp [put, file?, List.find?_append, h]

theorem file?_put_of_ne (f : Folder) {path other : Path} (text : String) (h : other ≠ path) :
    (f.put path text).file? other = f.file? other := by
  have hnew : (path == other) = false := by simpa using Ne.symm h
  have hold : (f.files.filter (·.1 != path)).find? (·.1 == other) =
      f.files.find? (·.1 == other) := by
    rw [List.find?_filter]
    congr 1
    funext entry
    by_cases he : entry.1 = other
    · simp [he, h]
    · simp [he]
  simp [put, file?, List.find?_append, hold, hnew]

/-- Whether a path leads to a folder, which it does if it is the start of a file's path. -/
def isFolder (f : Folder) (path : Path) : Bool :=
  path.isEmpty || f.files.any fun (file, _) => path.length < file.length && path.isPrefixOf file

def names (path : String) : List String :=
  (Text.splitOn '/' path.toList).map String.ofList

/-- Where a list of names leads to, one after another. No path leads out of the folder. -/
def follow (f : Folder) (start : Path) : List String → Except FileFault Path
  | [] => .ok start
  | name :: rest =>
    if !f.isFolder start then .error (if (f.file? start).isSome then .notFolder else .absent)
    else if name = "" ∨ name = "." then f.follow start rest
    else if name ≠ ".." then f.follow (start ++ [name]) rest
    else if start.isEmpty then .error .absent
    else f.follow start.dropLast rest

def resolve (f : Folder) (path : String) : Except FileFault Path :=
  if path.isEmpty || path.startsWith "/" then .error .absent else f.follow [] (names path)

def read (f : Folder) (path : String) : Except FileFault String := do
  let path ← f.resolve path
  match f.file? path with
  | some text => pure text
  | none => throw (if f.isFolder path then .isFolder else .absent)

/-- A file is made or replaced; the folder that it stands in has to be there. -/
def write (f : Folder) (path text : String) : Except FileFault Folder := do
  let path ← f.resolve path
  if f.isFolder path then throw .isFolder
  pure (f.put path text)

def ofList (files : List (String × String)) : Folder :=
  ⟨files.map fun (path, text) => (names path, text)⟩

/-- The files that are new or not as they were before. -/
def changes (before after : Folder) : List (String × String) :=
  (after.files.filter fun (path, text) => before.file? path ≠ some text).map fun (path, text) =>
    ("/".intercalate path, text)

end Folder

/-- A folder, and what has been printed since the run began. -/
structure Session where
  folder : Folder
  printed : String
  complaints : String
deriving DecidableEq, Repr

/-- The folder in memory as the surroundings of a run. -/
def Session.host : Host (StateM Session) where
  read path := do return (← get).folder.read path
  write path text := do
    match (← get).folder.write path text with
    | .ok folder => modify fun s => { s with folder }; pure (.ok ())
    | .error fault => pure (.error fault)
  print text := modify fun s => { s with printed := s.printed ++ text }
  complain text := modify fun s => { s with complaints := s.complaints ++ text }

end SchemaTidy
