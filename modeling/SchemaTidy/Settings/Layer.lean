import SchemaTidy.Toml.Value
import SchemaTidy.Text.Search

/-! Layers of settings. Of two layers the later one wins, setting by setting: tables are merged
key by key, and everything else replaces what was there. -/

namespace SchemaTidy.Settings
open Toml (Value Table)

mutual

/-- What a setting is once a layer has given it a value. -/
def overlay (lower : Option Value) : Value → Value
  | .table entries => overlayEntries lower entries
  | value => value

/-- A table takes the place of what is no table only with its first entry. -/
def overlayEntries (lower : Option Value) : List (String × Value) → Value
  | [] => lower.getD (.table [])
  | (key, value) :: rest =>
    let table : Table := (lower.bind Value.table?).getD []
    overlayEntries (some (.table (table.insert key (overlay (table.get? key) value)))) rest

end

theorem overlay_eq_self {lower : Option Value} {value : Value} (h : value.table? = none) :
    overlay lower value = value := by
  cases value <;> simp_all [overlay, Value.table?]

/-- A value in tables, one for each key of a path. -/
def nested : List String → Value → Value
  | [], value => value
  | key :: path, value => .table [(key, nested path value)]

def isPathChar (c : Char) : Bool := c.isAlphanum || c == '_' || c == '-' || c == ' '

/-- The path that a key at the top of a layer names; a key that is no path is its only part. Paths
into arrays (`catalog[0]`) are left out: a key with a subscript counts as one that is no path. -/
def pathOf (key : String) : List String :=
  let parts := Text.splitOn '.' key.toList
  if parts.all (fun part => !part.isEmpty && part.all isPathChar) then parts.map String.ofList
  else [key]

/-- The settings after one more layer. -/
def layered (settings : Value) (layer : Table) : Value :=
  layer.foldl (fun settings (key, value) => overlay (some settings) (nested (pathOf key) value))
    settings

/-- The settings of all layers, the strongest last. -/
def ofLayers (layers : List Table) : Value := layers.foldl layered (.table [])

end SchemaTidy.Settings
