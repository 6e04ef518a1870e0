import SchemaTidy.Toml.Number
import SchemaTidy.Toml.Quoted

/-! Writing TOML documents. A table under the key of a table gets a section with a header of its
own, after the values of the table above it, and so does each table of an array of tables. An
array of two or more items has each of them on a line. -/

namespace SchemaTidy.Toml

def keyText (key : String) : List Char :=
  let cs := key.toList
  if !cs.isEmpty && cs.all isBareKey then cs else basicText cs

def pathText (path : List String) : List Char := ['.'].intercalate (path.map keyText)

mutual

/-- A value on the line of its key. -/
def Value.text : Value → List Char
  | .bool b => (if b then "true" else "false").toList
  | .integer n => Decimal.intText n
  | .real x => realText x
  | .string s => stringText s.toList
  | .dateTime d => d.text
  | .array [] => "[]".toList
  | .array [item] => '[' :: item.text ++ [']']
  | .array items => "[\n".toList ++ itemsText items ++ [']']
  | .table [] => "\x7b\x7d".toList
  | .table entries => "\x7b ".toList ++ ", ".toList.intercalate (entryTexts entries) ++ " \x7d".toList

def itemsText : List Value → List Char
  | [] => []
  | item :: rest => "    ".toList ++ item.text ++ ",\n".toList ++ itemsText rest

def entryTexts : List (String × Value) → List (List Char)
  | [] => []
  | (key, value) :: rest => (keyText key ++ " = ".toList ++ value.text) :: entryTexts rest

end

/-- An array of one or more tables. -/
def Value.isSeries : Value → Bool
  | .array items => !items.isEmpty && items.all (·.table?.isSome)
  | _ => false

/-- Whether a value gets sections of its own. -/
def Value.isSection (v : Value) : Bool := v.table?.isSome || v.isSeries

def ownEntries (table : Table) : Table := table.filter fun entry => !entry.2.isSection

def bodyText (table : Table) : List Char :=
  (entryTexts (ownEntries table)).flatMap (· ++ ['\n'])

/-- A table that holds nothing but sections needs no header. -/
def tableSection (path : List String) (table : Table) : List (List Char) :=
  if (ownEntries table).isEmpty && !table.isEmpty then []
  else ['[' :: pathText path ++ "]\n".toList ++ bodyText table]

def elementSection (path : List String) (table : Table) : List Char :=
  "[[".toList ++ pathText path ++ "]]\n".toList ++ bodyText table

mutual

def sections (path : List String) : List (String × Value) → List (List Char)
  | [] => []
  | (key, value) :: rest => value.sections (path ++ [key]) ++ sections path rest

def Value.sections (path : List String) : Value → List (List Char)
  | .table entries => tableSection path entries ++ Toml.sections path entries
  | .array items => if (Value.array items).isSeries then elementSections path items else []
  | _ => []

def elementSections (path : List String) : List Value → List (List Char)
  | [] => []
  | .table entries :: rest =>
    elementSection path entries :: Toml.sections path entries ++ elementSections path rest
  | _ :: rest => elementSections path rest

end

/-- Sections are set apart by blank lines. -/
def text (table : Table) : String :=
  let own := bodyText table
  let all := (if own.isEmpty then [] else [own]) ++ sections [] table
  String.ofList (['\n'].intercalate all)

mutual

/-- Whether all integers of a value have 64 bits. -/
def Value.isWritable : Value → Bool
  | .integer n => isInteger n
  | .array items => allWritable items
  | .table entries => tableIsWritable entries
  | _ => true

def allWritable : List Value → Bool
  | [] => true
  | item :: rest => item.isWritable && allWritable rest

def tableIsWritable : List (String × Value) → Bool
  | [] => true
  | (_, value) :: rest => value.isWritable && tableIsWritable rest

end

/-- The text of a document, if its integers can be written. -/
def write? (table : Table) : Option String :=
  if tableIsWritable table then some (text table) else none

end SchemaTidy.Toml
