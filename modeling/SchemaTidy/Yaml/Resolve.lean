import SchemaTidy.Yaml.Value

/-! What a plain scalar means: null, a boolean, a whole number, a floating-point number, or else
a string. -/

namespace SchemaTidy.Yaml
open Decimal

/-- A whole number that a plain scalar spells. -/
inductive WholeNumber where
  | fits (n : Int)
  | oversized (n : Int)
deriving DecidableEq, Repr

def isNullText (cs : List Char) : Bool :=
  ["null", "Null", "NULL", "~"].any (·.toList == cs)

def boolOf? (cs : List Char) : Option Bool :=
  if ["true", "True", "TRUE"].any (·.toList == cs) then some true
  else if ["false", "False", "FALSE"].any (·.toList == cs) then some false
  else none

/-- A zero followed by more digits, signed or not, is no number. -/
def isZeroPadded (cs : List Char) : Bool :=
  match (splitSign cs).2 with
  | '0' :: d :: more => (d :: more).all Char.isDigit
  | _ => false

/-- The digits after a base marker, or all the text for base ten. A text whose marker is
followed by anything but digits may still be read in base ten, and fails. -/
def magnitude? (cs : List Char) : Option Nat :=
  match cs with
  | '0' :: 'x' :: digits => ofBase? 16 digits
  | '0' :: 'o' :: digits => ofBase? 8 digits
  | '0' :: 'b' :: digits => ofBase? 2 digits
  | digits => if isZeroPadded digits then none else ofBase? 10 digits

/-- Numbers up to 64 bits, signed or not, fit; numbers of up to 128 bits are too large, and a
text of more digits spells no whole number. -/
def wholeNumber? (cs : List Char) : Option WholeNumber :=
  match cs with
  | '-' :: rest => do
    let n ← magnitude? rest
    if n ≤ Nat.pow 2 63 then some (.fits (-n))
    else if n ≤ Nat.pow 2 127 then some (.oversized (-n))
    else none
  | _ => do
    let n ← magnitude? (if cs.head? = some '+' then cs.drop 1 else cs)
    if n < Nat.pow 2 64 then some (.fits n)
    else if n < Nat.pow 2 128 then some (.oversized n)
    else none

/-- A numeral that is too large for a floating-point number is none. -/
def real? (cs : List Char) : Option Binary :=
  let unsigned := if cs.head? = some '+' then cs.drop 1 else cs
  if [".inf", ".Inf", ".INF"].any (·.toList == unsigned) then some (.infinite false)
  else if ["-.inf", "-.Inf", "-.INF"].any (·.toList == cs) then some (.infinite true)
  else if [".nan", ".NaN", ".NAN"].any (·.toList == cs) then some .nan
  else (numeral? cs).map (·.nearest) |>.filter (·.isFinite)

inductive Resolved where
  | value (v : Value)
  | oversized (n : Int)

def Resolved.ofWhole : WholeNumber → Resolved
  | .fits n => .value (.number (.whole n))
  | .oversized n => .oversized n

/-- The meaning of a plain scalar without a tag. -/
def resolvePlain (cs : List Char) : Resolved :=
  if cs.isEmpty || isNullText cs then .value .null
  else
    match boolOf? cs, wholeNumber? cs with
    | some b, _ => .value (.bool b)
    | none, some n => .ofWhole n
    | none, none =>
      match (if isZeroPadded cs then none else real? cs) with
      | some x => .value (.number (.real x))
      | none => .value (.string (String.ofList cs))

/-- Whether a string, written plain, would not be read as a string again. -/
def looksTyped (cs : List Char) : Bool :=
  isZeroPadded cs ||
    match resolvePlain cs with
    | .value (.string _) => false
    | _ => true

end SchemaTidy.Yaml
