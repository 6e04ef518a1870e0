import SchemaTidy.Toml.DateTime
import SchemaTidy.Decimal.Binary
import SchemaTidy.Schema.Table

/-! Values of TOML documents. A document is a table, and the keys of a table are distinct. -/

namespace SchemaTidy.Toml
open Decimal (Binary)

inductive Value where
  | bool (b : Bool)
  | integer (n : Int)
  | real (x : Binary)
  | string (s : String)
  | dateTime (d : DateTime)
  | array (items : List Value)
  | table (entries : List (String × Value))
deriving Repr

instance : Inhabited Value := ⟨.table []⟩

abbrev Table := Schema.Table Value

/-- Integers have 64 bits. -/
def isInteger (n : Int) : Bool := -(Nat.pow 2 63 : Int) ≤ n && n < (Nat.pow 2 63 : Int)

def Value.table? : Value → Option Table
  | .table entries => some entries
  | _ => none

end SchemaTidy.Toml
