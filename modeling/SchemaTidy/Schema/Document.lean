import SchemaTidy.Schema.Definition
import SchemaTidy.Yaml.Read
import SchemaTidy.Yaml.Write

/-! A schema document: the YAML mapping that it was read from, and the tables of its classes,
slots and enums. Whatever the tables do not cover stays in the mapping and is written again. -/

namespace SchemaTidy.Schema
open Yaml (Value Entries)

/-- The words for the kind of a value, for messages. -/
def kindText : Value → String
  | .null => "null"
  | .bool _ => "a boolean"
  | .number _ => "a number"
  | .string _ => "a string"
  | .sequence _ => "a sequence"
  | .mapping _ => "a mapping"
  | .tagged .. => "a tagged value"

inductive SchemaError where
  | unreadable (e : Yaml.ReadError)
  | unwritable (e : Yaml.WriteError)
  | rootNotMapping
  | sectionNotMapping (name : String) (found : Value)
deriving DecidableEq, Repr

def SchemaError.message : SchemaError → String
  | .unreadable e => "YAML error: " ++ e.message
  | .unwritable e => "YAML error: " ++ e.message
  | .rootNotMapping => "Document root must be a mapping with classes, slots and enums"
  | .sectionNotMapping name found =>
    "Section '" ++ name ++ "' must be a mapping, found " ++ kindText found

structure Document where
  root : Entries
  classes : Table ClassDef
  slots : Table SlotDef
  enums : Table Value
deriving DecidableEq, Repr

namespace Document

/-- The entries of a section; none at all when the section is absent or null. -/
def sectionEntries (root : Entries) (name : String) : Except SchemaError Entries :=
  match root.get? name with
  | none | some .null => .ok []
  | some (.mapping entries) => .ok entries
  | some other => .error (.sectionNotMapping name other)

/-- The definitions of a section by the text of their keys; of two keys with one text the last
counts. -/
def readEntries (read : Value → α) (entries : Entries) : Table α :=
  entries.foldl
    (fun table (key, body) =>
      match scalarText? key with
      | some name => table.insert name (read body)
      | none => table)
    []

def readSection (root : Entries) (name : String) (read : Value → α) :
    Except SchemaError (Table α) :=
  (sectionEntries root name).map (readEntries read)

/-- The tables of a mapping; of several faulty sections the first in this order is named. -/
def ofRoot (root : Entries) : Except SchemaError Document := do
  let classes ← readSection root "classes" ClassDef.ofValue
  let slots ← readSection root "slots" SlotDef.ofValue
  let enums ← readSection root "enums" id
  .ok ⟨root, classes, slots, enums⟩

def parse (text : String) : Except SchemaError Document :=
  match Yaml.read text.toList with
  | .ok (.mapping root) => ofRoot root
  | .ok _ => .error .rootNotMapping
  | .error e => .error (.unreadable e)

def text (d : Document) : Except SchemaError String :=
  match Yaml.write (.mapping d.root) with
  | .ok cs => .ok (String.ofList cs)
  | .error e => .error (.unwritable e)

/-- The slots that classes refer to, each with the classes that do, in document order. -/
def references (d : Document) : Table (List String) :=
  d.classes.foldl
    (fun table (className, c) =>
      c.slots.foldl
        (fun table slot =>
          let known := (table.get? slot).getD []
          table.insert slot (if known.contains className then known else known ++ [className]))
        table)
    []

/-- The mapping with a place for slots in it: the place of a section that is null, else right
after the classes, else at the end. -/
def withSlotSection (root : Entries) : Entries :=
  match root.get? "slots" with
  | some (.mapping _) => root
  | some _ => root.insert (.string "slots") (.mapping [])
  | none =>
    let placed : Entries := root.foldl
      (fun (rebuilt : Entries) (key, value) =>
        let rebuilt := rebuilt.insert key value
        if key.untaggedString? = some "classes" then rebuilt.insert (.string "slots") (.mapping [])
        else rebuilt)
      []
    if (root.get? "classes").isSome then placed
    else placed.insert (.string "slots") (.mapping [])

/-- Set the body of a slot in the mapping. -/
def setSlot (root : Entries) (name : String) (body : Value) : Entries :=
  let root := withSlotSection root
  match root.get? "slots" with
  | some (.mapping slots) =>
    root.insert (.string "slots") (.mapping (Yaml.Entries.insert slots (.string name) body))
  | _ => root

/-- Declare a slot at the end of the table, or in the place of one with the same name. -/
def addSlot (d : Document) (name : String) (slot : SlotDef) : Document :=
  { d with root := setSlot d.root name slot.toValue, slots := d.slots.insert name slot }

end Document

end SchemaTidy.Schema
