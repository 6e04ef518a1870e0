import SchemaTidy.Decimal.Shortest

/-! Numerals: reading signs, digits, a fraction and an exponent, and setting digits out around a
decimal point. -/

namespace SchemaTidy.Decimal

def digitValue (c : Char) : Nat := c.toNat - '0'.toNat

/-- The value of a run of decimal digits. -/
def ofDigits (cs : List Char) : Nat := cs.foldl (fun n c => 10 * n + digitValue c) 0

/-- The value of a digit in bases up to sixteen, letter case aside. -/
def digitIn? (base : Nat) (c : Char) : Option Nat :=
  let value :=
    if c.isDigit then some (digitValue c)
    else if 'a' ≤ c ∧ c ≤ 'f' then some (c.toNat - 'a'.toNat + 10)
    else if 'A' ≤ c ∧ c ≤ 'F' then some (c.toNat - 'A'.toNat + 10)
    else none
  value.filter (· < base)

/-- The value of a text of digits in a base; none if it is empty or holds anything else. -/
def ofBase? (base : Nat) (cs : List Char) : Option Nat :=
  if cs.isEmpty then none
  else cs.foldlM (fun n c => (digitIn? base c).map (base * n + ·)) 0

/-- A sign, if any, and the rest of the text. -/
def splitSign : List Char → Bool × List Char
  | '-' :: cs => (true, cs)
  | '+' :: cs => (false, cs)
  | cs => (false, cs)

/-- A numeral `digits * 10 ^ exponent` with its sign. -/
structure Numeral where
  negative : Bool
  digits : Nat
  exponent : Int
deriving DecidableEq, Repr

def exponentPart? : List Char → Option Int
  | [] => some 0
  | c :: cs =>
    if c = 'e' ∨ c = 'E' then
      let (negative, digits) := splitSign cs
      (ofBase? 10 digits).map fun n => if negative then -n else n
    else none

/-- Read a numeral such as `-12`, `.5`, `1.` or `6.02e23`. -/
def numeral? (cs : List Char) : Option Numeral := do
  let (negative, cs) := splitSign cs
  let whole := cs.takeWhile Char.isDigit
  let afterWhole := cs.drop whole.length
  let (fraction, rest) :=
    match afterWhole with
    | '.' :: more => (more.takeWhile Char.isDigit, more.dropWhile Char.isDigit)
    | _ => ([], afterWhole)
  if whole.isEmpty && fraction.isEmpty then none
  else do
    let exponent ← exponentPart? rest
    some ⟨negative, ofDigits (whole ++ fraction), exponent - fraction.length⟩

def Numeral.nearest (n : Numeral) : Binary := Decimal.nearest n.negative n.digits n.exponent

/-- The digits of `digits * 10 ^ exponent` before and after the decimal point. -/
def places (digits : List Char) (exponent : Int) : List Char × List Char :=
  if 0 ≤ exponent then (digits ++ List.replicate exponent.toNat '0', [])
  else
    let count := (-exponent).toNat
    let padded := List.replicate (count + 1 - digits.length) '0' ++ digits
    padded.splitAt (padded.length - count)

def intText (n : Int) : List Char :=
  if n < 0 then '-' :: Nat.toDigits 10 n.natAbs else Nat.toDigits 10 n.natAbs

/-- A finite number without an exponent, and without a point when it is whole. -/
def positional (negative : Bool) (significand : Nat) (exponent : Int) : List Char :=
  let (digits, exponent) := if significand = 0 then (0, 0) else shortest significand exponent
  let (whole, fraction) := places (Nat.toDigits 10 digits) exponent
  let body := if fraction.isEmpty then whole else whole ++ '.' :: fraction
  if negative then '-' :: body else body

/-- How far a number may reach from the decimal point and still be written without exponent:
up to `whole` digits before it, and fewer than `zeros` zeros after it. -/
structure Layout where
  whole : Int
  zeros : Int

/-- A finite number with a point always, and with an exponent outside of the layout's range. -/
def Layout.text (layout : Layout) (negative : Bool) (significand : Nat) (exponent : Int) :
    List Char :=
  let (number, exponent) := if significand = 0 then (0, 0) else shortest significand exponent
  let digits := Nat.toDigits 10 number
  let point : Int := digits.length + exponent
  let body :=
    if -layout.zeros < point ∧ point ≤ layout.whole then
      let (whole, fraction) := places digits exponent
      whole ++ '.' :: (if fraction.isEmpty then ['0'] else fraction)
    else
      let mantissa :=
        match digits with
        | d :: e :: more => d :: '.' :: e :: more
        | single => single
      mantissa ++ 'e' :: intText (point - 1)
  if negative then '-' :: body else body

end SchemaTidy.Decimal
