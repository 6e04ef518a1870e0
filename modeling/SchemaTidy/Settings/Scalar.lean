import SchemaTidy.Settings.Environment

/-! Single settings. A value serves as a truth value, a count or a text also when it is of
another kind, as long as it can be taken for one. -/

namespace SchemaTidy.Settings
open Decimal (Binary)
open Toml (Value)

def isOne (lowered : List Char) : Bool :=
  lowered == "true".toList || lowered == "on".toList || lowered == "yes".toList

def isZero (lowered : List Char) : Bool :=
  lowered == "false".toList || lowered == "off".toList || lowered == "no".toList

def truth? : Value → Option Bool
  | .bool b => some b
  | .integer n => some (n != 0)
  | .real x => some (!x.sameNumber (.zero false))
  | .string s =>
    let lowered := Text.lowercase s.toList
    if isOne lowered || lowered == ['1'] then some true
    else if isZero lowered || lowered == ['0'] then some false
    else none
  | _ => none

/-- Counts have 64 bits. -/
def countLimit : Nat := Nat.pow 2 64

/-- A count nearest to a number, a half rounded up. -/
def rounded : Binary → Nat
  | .nan => 0
  | .infinite negative => if negative then 0 else countLimit - 1
  | .finite true _ _ => 0
  | .finite false significand exponent =>
    let (n, d) := Decimal.scale 2 significand 1 exponent
    min ((2 * n + d) / (2 * d)) (countLimit - 1)

def countText? (text : List Char) : Option Nat :=
  let digits := match text with
    | '+' :: more => more
    | _ => text
  (Decimal.ofBase? 10 digits).filter (· < countLimit)

def count? : Value → Option Nat
  | .bool b => some b.toNat
  | .integer n => if 0 ≤ n then some n.toNat else none
  | .real x => some (rounded x)
  | .string s =>
    let lowered := Text.lowercase s.toList
    if isOne lowered then some 1
    else if isZero lowered then some 0
    else countText? s.toList
  | _ => none

/-- A number is written without an exponent, and without a point when it is whole. -/
def numberText : Binary → List Char
  | .nan => "NaN".toList
  | .infinite negative => (if negative then "-inf" else "inf").toList
  | .finite negative significand exponent => Decimal.positional negative significand exponent

def text? : Value → Option String
  | .bool b => some (if b then "true" else "false")
  | .integer n => some (String.ofList (Decimal.intText n))
  | .real x => some (String.ofList (numberText x))
  | .string s => some s
  | .dateTime d => some (String.ofList d.text)
  | .array _ | .table _ => none

end SchemaTidy.Settings
