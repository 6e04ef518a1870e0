import SchemaTidy.Settings.Scalar
import SchemaTidy.Policy

/-! A policy as settings. What is not set keeps its default, and settings that no policy has do
not count; a slot of the catalog has no defaults. -/

namespace SchemaTidy.Settings
open Toml (Value Table)

/-- The settings of a section, which may be a list of them in their order. -/
def section? (names : List String) : Value → Option Table
  | .table entries => some entries
  | .array items => some (names.zip items)
  | _ => none

/-- A setting, or its default. -/
def setting {α : Type} (table : Table) (name : String) (read : Value → Option α) (default : α) :
    Option α :=
  match table.get? name with
  | some value => read value
  | none => some default

def list? {α : Type} (read : Value → Option α) : Value → Option (List α)
  | .array items => items.mapM read
  | _ => none

def validation? (value : Value) : Option ValidationPolicy := do
  let d := Policy.standard.validation
  let t ← section? ["builtin_types", "enum_suffix", "suggest_similar"] value
  return ⟨← setting t "builtin_types" (list? text?) d.builtinTypes,
    ← setting t "enum_suffix" text? d.enumSuffix,
    ← setting t "suggest_similar" truth? d.suggestSimilar⟩

def identifier? (value : Value) : Option IdentifierSlot := do
  let d := Policy.standard.repair.identifier
  let t ← section? ["name", "range", "description", "min_references"] value
  return ⟨⟨← setting t "name" text? d.name, ← setting t "range" text? d.range,
    ← setting t "description" text? d.description⟩,
    ← setting t "min_references" count? d.minReferences⟩

def catalogSlot? (value : Value) : Option CatalogSlot := do
  let t ← section? ["name", "range", "description"] value
  return ⟨← text? (← t.get? "name"), ← text? (← t.get? "range"), ← text? (← t.get? "description")⟩

def repair? (value : Value) : Option RepairPolicy := do
  let d := Policy.standard.repair
  let t ← section? ["catalog_min_references", "identifier", "catalog"] value
  return ⟨← setting t "catalog_min_references" count? d.catalogMinReferences,
    ← setting t "identifier" identifier? d.identifier,
    ← setting t "catalog" (list? catalogSlot?) d.catalog⟩

def indentWidth? (value : Value) : Option Nat := do
  setting (← section? ["indent_width"] value) "indent_width" count? Policy.standard.indentWidth

/-- The policy that settings describe. -/
def policy? (value : Value) : Option Policy := do
  let d := Policy.standard
  let t ← section? ["validation", "repair", "dedupe"] value
  return ⟨← setting t "validation" validation? d.validation, ← setting t "repair" repair? d.repair,
    ← setting t "dedupe" indentWidth? d.indentWidth⟩

/-! ## The settings of a policy -/

def count (n : Nat) : Value := .integer n

def slotEntries (slot : CatalogSlot) : Table :=
  [("name", .string slot.name), ("range", .string slot.range),
    ("description", .string slot.description)]

def validationEntries (p : ValidationPolicy) : Table :=
  [("builtin_types", .array (p.builtinTypes.map .string)), ("enum_suffix", .string p.enumSuffix),
    ("suggest_similar", .bool p.suggestSimilar)]

def repairEntries (p : RepairPolicy) : Table :=
  [("catalog_min_references", count p.catalogMinReferences),
    ("identifier", .table (slotEntries p.identifier.toCatalogSlot ++
      [("min_references", count p.identifier.minReferences)])),
    ("catalog", .array (p.catalog.map fun slot => .table (slotEntries slot)))]

/-- All settings of a policy. -/
def ofPolicy (p : Policy) : Table :=
  [("validation", .table (validationEntries p.validation)), ("repair", .table (repairEntries p.repair)),
    ("dedupe", .table [("indent_width", count p.indentWidth)])]

end SchemaTidy.Settings
