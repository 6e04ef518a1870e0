import SchemaTidy.Toml.Value
import SchemaTidy.Decimal.Numeral
import SchemaTidy.Text.Lowercase

/-! The layer of the environment. A variable names a setting by its path, with two underscores
between the parts and in letters of either case; its text is taken for a truth value, a whole
number or any number before it is taken for a string. -/

namespace SchemaTidy.Settings
open Decimal (Binary)
open Toml (Value Table)

abbrev Environment := List (String × String)

def variablePrefix : List Char := "schema_doctor__".toList

/-- A path with points for its double underscores. -/
def dotted : List Char → List Char
  | '_' :: '_' :: rest => '.' :: dotted rest
  | c :: rest => c :: dotted rest
  | [] => []

def truthValue? (text : List Char) : Option Bool :=
  let lowered := Text.lowercase text
  if lowered = "true".toList then some true
  else if lowered = "false".toList then some false
  else none

def integer? (text : List Char) : Option Int := do
  let (negative, digits) := Decimal.splitSign text
  let n : Int := ← Decimal.ofBase? 10 digits
  let n := if negative then -n else n
  if Toml.isInteger n then some n else none

/-- Infinity and results that are no numbers have names, in letters of either case. -/
def named? (text : List Char) : Option Binary :=
  let (negative, name) := Decimal.splitSign text
  let name := name.map Char.toLower
  if name = "inf".toList ∨ name = "infinity".toList then some (.infinite negative)
  else if name = "nan".toList then some .nan
  else none

def real? (text : List Char) : Option Binary :=
  (named? text).or ((Decimal.numeral? text).map (·.nearest))

def variableValue (text : String) : Value :=
  let cs := text.toList
  match truthValue? cs, integer? cs, real? cs with
  | some b, _, _ => .bool b
  | none, some n, _ => .integer n
  | none, none, some x => .real x
  | none, none, none => .string text

/-- The setting that a variable names, if it is one of this program. -/
def variableKey? (name : String) : Option String :=
  let lowered := Text.lowercase name.toList
  if variablePrefix.isPrefixOf lowered then
    some (String.ofList (dotted (lowered.drop variablePrefix.length)))
  else none

def Environment.layer (environment : Environment) : Table :=
  environment.filterMap fun (name, text) =>
    (variableKey? name).map fun key => (key, variableValue text)

end SchemaTidy.Settings
