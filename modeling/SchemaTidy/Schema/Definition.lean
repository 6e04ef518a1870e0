import SchemaTidy.Schema.Table
import SchemaTidy.Yaml.Value

/-! Definitions of classes and slots. They are read leniently from YAML values: what has an
unexpected form is kept as an extra attribute, or left out where it names nothing. -/

namespace SchemaTidy.Schema
open Yaml (Value Entries)

/-- The text of a scalar that can be a name: a string, a number or a boolean. -/
def scalarText? : Value → Option String
  | .string s => some s
  | .number n => some (String.ofList n.text)
  | .bool b => some (toString b)
  | _ => none

/-- Booleans, and the words that YAML has used for them, in any letter case. -/
def flag? : Value → Option Bool
  | .bool b => some b
  | .string s =>
    let word := s.toList.map Char.toLower
    if ["true", "yes", "y", "on"].any (·.toList == word) then some true
    else if ["false", "no", "n", "off"].any (·.toList == word) then some false
    else none
  | _ => none

/-- A class lists the slots that it has; their definitions are in the table of slots. -/
structure ClassDef where
  slots : List String
  extra : Table Value
deriving DecidableEq, Repr

structure SlotDef where
  description : Option String
  range : Option String
  identifier : Option Bool
  required : Option Bool
  extra : Table Value
deriving DecidableEq, Repr

namespace ClassDef

def empty : ClassDef := ⟨[], []⟩

/-- The slots of a list, or of a single scalar; items that are no scalars are left out. -/
def slotNames : Value → List String
  | .sequence items => items.filterMap scalarText?
  | v => (scalarText? v).toList

def add (c : ClassDef) (key value : Value) : ClassDef :=
  match scalarText? key with
  | none => c
  | some "slots" => { c with slots := slotNames value }
  | some name => { c with extra := c.extra.insert name value }

def ofValue : Value → ClassDef
  | .mapping entries => entries.foldl (fun c (k, v) => c.add k v) empty
  | _ => empty

/-- The attributes of a class, its slots first unless there are none. -/
def entries (c : ClassDef) : Entries :=
  (if c.slots.isEmpty then [] else [(.string "slots", .sequence (c.slots.map .string))]) ++
    c.extra.map fun (name, value) => (.string name, value)

/-- The body of a class. -/
def toValue (c : ClassDef) : Value :=
  .mapping <| c.entries.foldl
    (fun (entries : Entries) (key, value) => entries.insert key value) []

end ClassDef

namespace SlotDef

def empty : SlotDef := ⟨none, none, none, none, []⟩

def ofRange (range : String) : SlotDef := { empty with range := some range }

def isIdentifier (d : SlotDef) : Bool := d.identifier.getD false

def isRequired (d : SlotDef) : Bool := d.required.getD false

/-- Description and range are strings, with or without a tag. -/
def add (d : SlotDef) (key value : Value) : SlotDef :=
  match scalarText? key with
  | none => d
  | some name =>
    match name, value.untaggedString?, flag? value with
    | "description", some s, _ => { d with description := some s }
    | "range", some s, _ => { d with range := some s }
    | "identifier", _, some b => { d with identifier := some b }
    | "required", _, some b => { d with required := some b }
    | _, _, _ => { d with extra := d.extra.insert name value }

def ofValue : Value → SlotDef
  | .mapping entries => entries.foldl (fun d (k, v) => d.add k v) empty
  | _ => empty

/-- The declared attributes that are there, in the order of the structure. -/
def declared (d : SlotDef) : Entries :=
  let field (name : String) (value : Option Value) : Entries :=
    (value.map fun v => (Value.string name, v)).toList
  field "description" (d.description.map .string) ++ field "range" (d.range.map .string) ++
    field "identifier" (d.identifier.map .bool) ++ field "required" (d.required.map .bool)

def entries (d : SlotDef) : Entries :=
  d.declared ++ d.extra.map fun (name, value) => (.string name, value)

/-- The body of a slot. An extra attribute named like a declared one takes its place. -/
def toValue (d : SlotDef) : Value :=
  .mapping <| d.extra.foldl
    (fun (entries : Entries) (name, value) => entries.insert (.string name) value) d.declared

end SlotDef

end SchemaTidy.Schema
