import SchemaTidy.Findings

/-! How complete a document is: what it defines, what it refers to, and what of that is missing.
The counts can be had of any document, valid or not. -/

namespace SchemaTidy
open Schema

/-- The names in ascending order of their bytes, each once. -/
def sortedNames (names : List String) : List String :=
  (names.eraseDups).mergeSort fun a b => decide (a ≤ b)

structure Completeness where
  classes : Nat
  slotsDefined : Nat
  slotsReferenced : Nat
  enumsDefined : Nat
  enumsReferenced : Nat
  missingSlots : List String
  missingEnums : List String
deriving DecidableEq, Repr

namespace Completeness

def ofDocument (suffix : String) (d : Document) : Completeness :=
  let slots := sortedNames (d.classes.flatMap (·.2.slots))
  let enums := sortedNames ((d.slots.filterMap (·.2.range)).filter (isEnumReference suffix))
  { classes := d.classes.length
    slotsDefined := d.slots.length
    slotsReferenced := slots.length
    enumsDefined := d.enums.length
    enumsReferenced := enums.length
    missingSlots := slots.filter (!d.slots.contains ·)
    missingEnums := enums.filter (!d.enums.contains ·) }

def slotsMissing (c : Completeness) : Nat := c.missingSlots.length

def enumsMissing (c : Completeness) : Nat := c.missingEnums.length

def isComplete (c : Completeness) : Bool := c.slotsMissing == 0 && c.enumsMissing == 0

/-- The counts under their names in a report. -/
def counts (c : Completeness) : List (String × Nat) := [
  ("classes", c.classes),
  ("slots_defined", c.slotsDefined),
  ("slots_referenced", c.slotsReferenced),
  ("slots_missing", c.slotsMissing),
  ("enums_defined", c.enumsDefined),
  ("enums_referenced", c.enumsReferenced),
  ("enums_missing", c.enumsMissing)]

end Completeness

/-- The report on a text: its completeness, or why it is no document. -/
abbrev Report := Except SchemaError Completeness

namespace Report

def ofText (suffix text : String) : Report :=
  (Document.parse text).map (Completeness.ofDocument suffix)

private def hexDigits (n : Nat) : List Char :=
  let digits := Nat.toDigits 16 n
  List.replicate (4 - digits.length) '0' ++ digits

/-- A character between the quotes of a JSON string. -/
private def jsonChar (c : Char) : List Char :=
  match c with
  | '"' => ['\\', '"']
  | '\\' => ['\\', '\\']
  | '\x08' => ['\\', 'b']
  | '\x0c' => ['\\', 'f']
  | '\n' => ['\\', 'n']
  | '\r' => ['\\', 'r']
  | '\t' => ['\\', 't']
  | _ => if c.toNat < 0x20 then '\\' :: 'u' :: hexDigits c.toNat else [c]

private def jsonString (s : String) : String :=
  "\"" ++ String.ofList (s.toList.flatMap jsonChar) ++ "\""

private def jsonObject (fields : List (String × String)) : String :=
  let lines := fields.map fun (name, value) => "  " ++ jsonString name ++ ": " ++ value
  "\x7b\n" ++ String.intercalate ",\n" lines ++ "\n\x7d"

/-- The report as JSON, a field a line. -/
def json (r : Report) : String :=
  match r with
  | .ok c => jsonObject (c.counts.map fun (name, n) => (name, toString n))
  | .error e => jsonObject [("error", jsonString e.message)]

end Report

end SchemaTidy
