import SchemaTidy.Toml.Value

/-! How a document is put together from its headers and entries. A table that is written out may
not be written out again or be reached by the dotted keys of another table; one that came up only
on the way to another table may be written out later. -/

namespace SchemaTidy.Toml

inductive Statement where
  | header (path : List String)
  | element (path : List String)
  | entry (path : List String) (value : Value)
deriving Repr

/-- How a table came up: by a header of its own, on the way to another header, or on the way
along a dotted key. -/
inductive Origin where
  | written
  | implied
  | dotted
deriving DecidableEq, Repr

inductive Node where
  | leaf (value : Value)
  | branch (origin : Origin) (children : List (String × Node))
  /-- The elements of an array of tables; what follows belongs to the last of them. -/
  | series (elements : List (List (String × Node)))

abbrev Children := Schema.Table Node

namespace Node

mutual

def value : Node → Value
  | leaf v => v
  | branch _ children => .table (valuesOf children)
  | series elements => .array (tablesOf elements)

def valuesOf : List (String × Node) → List (String × Value)
  | [] => []
  | (key, node) :: rest => (key, node.value) :: valuesOf rest

def tablesOf : List (List (String × Node)) → List Value
  | [] => []
  | children :: rest => .table (valuesOf children) :: tablesOf rest

end

end Node

namespace Children

/-- Change the table at the end of a path, which comes up now if it is not there. A dotted path
does not lead through a table that is written out. -/
def within (new : Origin) (change : Origin → Children → Option Children) :
    List String → Origin → Children → Option Children
  | [], origin, children => change origin children
  | key :: path, _, children =>
    match children.get? key with
    | none => do
      return children.insert key (.branch new (← within new change path new []))
    | some (.leaf _) => none
    | some (.branch origin inner) =>
      if new = .dotted ∧ origin = .written then none
      else do return children.insert key (.branch origin (← within new change path origin inner))
    | some (.series elements) => do
      let last ← elements.getLast?
      let last ← within new change path .written last
      return children.insert key (.series (elements.dropLast ++ [last]))

/-- Set a key that is not there yet. Tables along dotted keys are closed to all but these. -/
def setNew (isDotted : Bool) (key : String) (value : Value) (origin : Origin)
    (children : Children) : Option Children :=
  if (origin == .dotted) != isDotted || children.contains key then none
  else some (children.insert key (.leaf value))

/-- Set the value at the end of a dotted key. -/
def setEntry (path : List String) (value : Value) (origin : Origin) (children : Children) :
    Option Children := do
  let key ← path.getLast?
  within .dotted (setNew (1 < path.length) key value) path.dropLast origin children

def openTable (key : String) (_ : Origin) (children : Children) : Option Children :=
  match children.get? key with
  | none => some (children.insert key (.branch .written []))
  | some (.branch .implied inner) => some (children.insert key (.branch .written inner))
  | some _ => none

def openElement (key : String) (_ : Origin) (children : Children) : Option Children :=
  match children.get? key with
  | none => some (children.insert key (.series [[]]))
  | some (.series elements) => some (children.insert key (.series (elements ++ [[]])))
  | some _ => none

/-- The table of entries that stand in one pair of braces. -/
def ofEntries (entries : List (List String × Value)) : Option Children :=
  entries.foldlM (fun children (path, value) => setEntry path value .written children) []

end Children

/-- The tables so far, and the path of the one that is open. -/
structure Outline where
  root : Children
  current : List String

namespace Outline

def underHeader (o : Outline) (path : List String)
    (change : String → Origin → Children → Option Children) : Option Outline := do
  let key ← path.getLast?
  return ⟨← o.root.within .implied (change key) path.dropLast .written, path⟩

def take (o : Outline) : Statement → Option Outline
  | .header path => o.underHeader path Children.openTable
  | .element path => o.underHeader path Children.openElement
  | .entry path value => do
    return { o with
      root := ← o.root.within .implied (Children.setEntry path value) o.current .written }

def ofStatements (statements : List Statement) : Option Outline :=
  statements.foldlM take ⟨[], []⟩

def table (o : Outline) : Table := Node.valuesOf o.root

end Outline

end SchemaTidy.Toml
